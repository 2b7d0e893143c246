/-
minzip/Hash.c: every sequence of operations on a table keeps its load, with
any hashes and any comparisons.

The products of the counts with the factors of the load stay within an `int`,
as a table has at most 2^27 entries.  That an item is neither `NULL` nor
`HASH_TOMBSTONE` is part of its type.
-/
import MetaOS.MinZipHashLoad

namespace MetaOS

namespace MinZipHash

open HashTable Probing

variable {α : Type}

/-- The loop of `mzHashForeach`: the first value that is not zero. -/
def mzHashForeach (func : α → Int) : List (HashEntry α) → Int
  | [] => 0
  | e :: rest =>
      match e.data with
      | .item value =>
          let val := func value
          if val ≠ 0 then val else mzHashForeach func rest
      | _ => mzHashForeach func rest

section Probes

variable [DecidableEq α]

/-- The search with the count of its moves. -/
def searchMoves (table : HashTable α) (itemHash : UInt32)
    (stop : HashEntry α → Bool) : Option (Nat × Nat) :=
  probeMoves (wrap table.tableSize)
    (fun i =>
      let e := entry table.pEntries i
      e.data = .null ∨ stop e)
    (table.tableSize + 1) 0 (itemHash.toNat &&& (table.tableSize - 1))

def countProbes (cmpFunc : α → α → Bool) (table : HashTable α)
    (itemHash : UInt32) : Data α → Except Failure Int
  | .item item =>
      let isMatch (e : HashEntry α) : Bool :=
        match e.data with
        | .item value => e.hashValue = itemHash ∧ cmpFunc value item
        | _ => false
      if table.tableSize = 0 then .error .assertion
      else
        match searchMoves table itemHash isMatch with
        | none => .error .endless
        | some (i, count) =>
            if (entry table.pEntries i).data = .null then .ok (-1)
            else .ok count
  | _ => .error .assertion

/-- The counts from which the message is made. -/
def mzHashTableProbeCount (calcFunc : Data α → UInt32)
    (cmpFunc : α → α → Bool) (table : HashTable α) :
    Except Failure (List Int) :=
  (mzHashIterate table).mapM fun data =>
    countProbes cmpFunc table (calcFunc data) data

end Probes

/-- The operations, each with the hash and the functions of its caller. -/
inductive Operation (α : Type) where
  | lookup (cmpFunc : α → α → Bool) (itemHash : UInt32) (item : α)
      (doAdd : Bool)
  | remove (itemHash : UInt32) (item : α)
  | clear
  | foreach (func : α → Int)
  | iterate
  | probeCount (calcFunc : Data α → UInt32) (cmpFunc : α → α → Bool)

inductive Reply (α : Type) where
  | found (item : Option α)
  | removed (success : Bool)
  | freed (items : List α)
  | value (val : Int)
  | visited (data : List (Data α))
  | counts (counts : List Int)

section Runs

variable [DecidableEq α] (memory : Nat → Bool)

def Operation.run (table : HashTable α) :
    Operation α → Except Failure (Reply α × HashTable α)
  | .lookup cmpFunc itemHash item doAdd => do
      let (result, table) ←
        mzHashTableLookup memory cmpFunc table itemHash item doAdd
      .ok (.found result, table)
  | .remove itemHash item => do
      let (result, table) ← mzHashTableRemove table itemHash item
      .ok (.removed result, table)
  | .clear =>
      let (freed, table) := mzHashTableClear table
      .ok (.freed freed, table)
  | .foreach func => .ok (.value (mzHashForeach func table.pEntries), table)
  | .iterate => .ok (.visited (mzHashIterate table), table)
  | .probeCount calcFunc cmpFunc => do
      let counts ← mzHashTableProbeCount calcFunc cmpFunc table
      .ok (.counts counts, table)

def runAll (table : HashTable α) :
    List (Operation α) → Except Failure (List (Reply α) × HashTable α)
  | [] => .ok ([], table)
  | op :: ops => do
      let (reply, table) ← op.run memory table
      let (replies, table) ← runAll table ops
      .ok (reply :: replies, table)

/-- A table is created and then used. -/
def useTable (initialSize : UInt32) (ops : List (Operation α)) :
    Except Failure (List (Reply α) × HashTable α) := do
  let table ← mzHashTableCreate memory initialSize
  runAll memory table ops

/-- What an operation does to the load: nothing is wrong afterwards, unless the
memory for a larger table is refused. -/
def Keeps (table : HashTable α) (op : Operation α) : Prop :=
  ((∃ cmpFunc itemHash item, op = .lookup cmpFunc itemHash item true) ∧
    table.Refused memory ∧ op.run memory table = .error .noMemory) ∨
  ∃ reply table', op.run memory table = .ok (reply, table') ∧
    table'.Loaded ∧
    (table'.tableSize = table.tableSize ∨ table'.tableSize * 20 < 2 ^ 32)

end Runs

section Steps

variable [DecidableEq α] {table : HashTable α}

theorem lookup_keeps (memory : Nat → Bool) (hloaded : table.Loaded)
    (cmpFunc : α → α → Bool) (itemHash : UInt32) (item : α) (doAdd : Bool) :
    Keeps memory table (.lookup cmpFunc itemHash item doAdd) := by
  have hpos := hloaded.size_pos
  unfold Keeps Operation.run mzHashTableLookup
  simp only [if_neg hpos.ne']
  generalize hstop : (fun e : HashEntry α =>
    match e.data with
    | .item value =>
        decide (e.hashValue = itemHash ∧ cmpFunc value item = true)
    | _ => false) = stop
  obtain ⟨i, hi, hsearch, hend⟩ := hloaded.search_spot itemHash stop
  rw [hsearch]
  dsimp only
  cases hdata : (entry table.pEntries i).data with
  | tombstone => exact .inr ⟨.found none, table, rfl, hloaded, .inl rfl⟩
  | item value =>
      exact .inr ⟨.found (some value), table, rfl, hloaded, .inl rfl⟩
  | null =>
      cases doAdd with
      | false => exact .inr ⟨.found none, table, rfl, hloaded, .inl rfl⟩
      | true =>
          have hspot : Spot table.pEntries itemHash i := by
            refine hend.resolve_right ?_
            simp [← hstop, hdata]
          obtain ⟨hrefused, herror⟩ |
            ⟨table', hok, hloaded', hsize, -, -⟩ :=
            afterAdd_loaded (P := fun _ => True) memory hloaded hspot item
              trivial (fun _ => trivial) fun _ _ _ _ _ _ _ _ => trivial
          · left
            refine ⟨⟨cmpFunc, itemHash, item, rfl⟩, hrefused, ?_⟩
            rw [HashTable.add] at herror
            simp only [if_true, herror, bind, Except.bind]
          · right
            rw [HashTable.add] at hok
            refine ⟨.found (some item), table', ?_, hloaded', hsize⟩
            simp only [if_true, hok, bind, Except.bind]

theorem remove_keeps (memory : Nat → Bool) (hloaded : table.Loaded)
    (itemHash : UInt32) (item : α) :
    Keeps memory table (.remove itemHash item) := by
  have hpos := hloaded.size_pos
  right
  unfold Operation.run mzHashTableRemove
  simp only [if_neg hpos.ne']
  obtain ⟨i, hi, hsearch, hend⟩ := hloaded.search_spot itemHash
    (fun e => decide (e.data = .item item))
  rw [hsearch]
  dsimp only
  by_cases hnull : (entry table.pEntries i).data = .null
  · rw [if_pos hnull]
    exact ⟨.removed false, table, rfl, hloaded, .inl rfl⟩
  · have hdata : (entry table.pEntries i).data = .item item := by
      have hstop := hend.resolve_left fun hspot => hnull hspot.null
      exact of_decide_eq_true hstop
    have hperm := items_set_tombstone hdata
      (show ({ entry table.pEntries i with data := .tombstone } :
        HashEntry α).data = .tombstone from rfl)
    have hlength := hperm.length_eq
    have hload := hloaded.load
    simp only [LOAD_DENOM, LOAD_NUMER] at hload
    rw [List.length_cons, hloaded.numEntries] at hlength
    rw [if_neg hnull]
    refine ⟨.removed true, _, rfl, ⟨hloaded.power, ?_, ?_, ?_, ?_⟩, .inl rfl⟩
    · rw [List.length_set]
      exact hloaded.length
    · dsimp only
      rw [hlength, Nat.add_sub_cancel]
    · rw [countTombStones_set_tombstone hdata rfl, hloaded.numDeadEntries]
    · simp only [LOAD_DENOM, LOAD_NUMER]
      omega

theorem clear_keeps (memory : Nat → Bool) (hloaded : table.Loaded) :
    Keeps memory table .clear := by
  refine .inr ⟨.freed (items table.pEntries), _, rfl,
    ⟨hloaded.power, ?_, ?_, ?_, ?_⟩, .inl rfl⟩
  · simpa [mzHashTableClear] using hloaded.length
  · simp [items]
  · simp [countTombStones]
  · simp

/-- Of the data of an iterator, each is looked for once more. -/
theorem countProbes_ok (hloaded : table.Loaded) (cmpFunc : α → α → Bool)
    (itemHash : UInt32) (item : α) :
    ∃ count, countProbes cmpFunc table itemHash (.item item) = .ok count := by
  have hpos := hloaded.size_pos
  unfold countProbes
  simp only [if_neg hpos.ne']
  generalize (fun e : HashEntry α =>
    match e.data with
    | .item value =>
        decide (e.hashValue = itemHash ∧ cmpFunc value item = true)
    | _ => false) = stop
  obtain ⟨i, hi, hsearch, -⟩ := hloaded.search_spot itemHash stop
  rw [search, ← probeMoves_fst _ 0, Option.map_eq_some_iff] at hsearch
  change ∃ found, searchMoves table itemHash stop = some found ∧ _ at hsearch
  obtain ⟨⟨i, count⟩, hmoves, rfl⟩ := hsearch
  rw [hmoves]
  dsimp only
  split
  · exact ⟨-1, rfl⟩
  · exact ⟨count, rfl⟩

theorem mapM_ok {β γ ε : Type} {f : β → Except ε γ} {list : List β}
    (hall : ∀ x ∈ list, ∃ y, f x = .ok y) :
    ∃ ys, list.mapM f = .ok ys := by
  induction list with
  | nil => exact ⟨[], rfl⟩
  | cons x list ih =>
      obtain ⟨y, hy⟩ := hall x List.mem_cons_self
      obtain ⟨ys, hys⟩ := ih fun x hx => hall x (List.mem_cons_of_mem _ hx)
      refine ⟨y :: ys, ?_⟩
      rw [List.mapM_cons, hy]
      simp only [bind, Except.bind, hys, pure, Except.pure]

/-- The items that are counted are those of an iteration, so that the
assertions on them hold. -/
theorem probeCount_keeps (memory : Nat → Bool) (hloaded : table.Loaded)
    (calcFunc : Data α → UInt32) (cmpFunc : α → α → Bool) :
    Keeps memory table (.probeCount calcFunc cmpFunc) := by
  have hall : ∀ data ∈ mzHashIterate table, ∃ count,
      countProbes cmpFunc table (calcFunc data) data = .ok count := by
    rw [mzHashIterate_eq hloaded.length]
    intro data hdata
    obtain ⟨item, -, rfl⟩ := List.mem_map.mp hdata
    exact countProbes_ok hloaded cmpFunc _ item
  obtain ⟨counts, hcounts⟩ := mapM_ok hall
  refine .inr ⟨.counts counts, table, ?_, hloaded, .inl rfl⟩
  simp only [Operation.run, mzHashTableProbeCount, hcounts, bind, Except.bind]

theorem run_keeps (memory : Nat → Bool) (hloaded : table.Loaded)
    (op : Operation α) : Keeps memory table op := by
  cases op with
  | lookup cmpFunc itemHash item doAdd =>
      exact lookup_keeps memory hloaded cmpFunc itemHash item doAdd
  | remove itemHash item => exact remove_keeps memory hloaded itemHash item
  | clear => exact clear_keeps memory hloaded
  | foreach func => exact .inr ⟨_, table, rfl, hloaded, .inl rfl⟩
  | iterate => exact .inr ⟨_, table, rfl, hloaded, .inl rfl⟩
  | probeCount calcFunc cmpFunc =>
      exact probeCount_keeps memory hloaded calcFunc cmpFunc

/-- The operations come to an adding lookup for which the memory is refused,
and all of them before it have returned. -/
def Operation.RunsOut (memory : Nat → Bool) (table : HashTable α)
    (ops : List (Operation α)) : Prop :=
  ∃ before cmpFunc itemHash item after replies table',
    ops = before ++ .lookup cmpFunc itemHash item true :: after ∧
    runAll memory table before = .ok (replies, table') ∧
    table'.Refused memory

theorem Operation.RunsOut.cons {memory : Nat → Bool} {op : Operation α}
    {ops : List (Operation α)} {reply : Reply α} {table' : HashTable α}
    (hok : op.run memory table = .ok (reply, table'))
    (hout : Operation.RunsOut memory table' ops) :
    Operation.RunsOut memory table (op :: ops) := by
  obtain ⟨before, cmpFunc, itemHash, item, after, replies, last, rfl, hbefore,
    hrefused⟩ := hout
  refine ⟨op :: before, cmpFunc, itemHash, item, after, reply :: replies, last,
    rfl, ?_, hrefused⟩
  rw [runAll, hok]
  simp only [bind, Except.bind, hbefore]

/-- A run of operations fails for want of memory only. -/
theorem runAll_loaded (memory : Nat → Bool) (ops : List (Operation α))
    (hloaded : table.Loaded) (hfits : table.tableSize * 20 < 2 ^ 32) :
    (Operation.RunsOut memory table ops ∧
      runAll memory table ops = .error .noMemory) ∨
    ∃ replies table', runAll memory table ops = .ok (replies, table') ∧
      table'.Loaded ∧ table'.tableSize * 20 < 2 ^ 32 := by
  induction ops generalizing table with
  | nil => exact .inr ⟨[], table, rfl, hloaded, hfits⟩
  | cons op ops ih =>
      obtain ⟨⟨cmpFunc, itemHash, item, rfl⟩, hrefused, herror⟩ |
        ⟨reply, next, hok, hnext, hsize⟩ := run_keeps memory hloaded op
      · left
        refine ⟨⟨[], cmpFunc, itemHash, item, ops, [], table, rfl, rfl,
          hrefused⟩, ?_⟩
        rw [runAll, herror]
        rfl
      · have hnextFits : next.tableSize * 20 < 2 ^ 32 := by
          rcases hsize with hsame | hlarger
          · rwa [hsame]
          · exact hlarger
        obtain ⟨hout, herror⟩ | ⟨replies, last, hrest, hlast⟩ :=
          ih hnext hnextFits
        · left
          refine ⟨hout.cons hok, ?_⟩
          rw [runAll, hok]
          simp only [bind, Except.bind, herror]
        · right
          refine ⟨reply :: replies, last, ?_, hlast⟩
          rw [runAll, hok]
          simp only [bind, Except.bind, hrest]

theorem mzHashTableCreate_loaded (memory : Nat → Bool) {initialSize : UInt32}
    (hpos : 0 < initialSize.toNat) (hle : initialSize.toNat ≤ 2 ^ 31) :
    (¬ Granted memory (roundUpPower2 initialSize).toNat ∧
      (mzHashTableCreate memory initialSize : Except Failure (HashTable α)) =
        .error .noMemory) ∨
    ∃ table : HashTable α,
      mzHashTableCreate memory initialSize = .ok table ∧ table.Loaded ∧
      table.tableSize * 20 < 2 ^ 32 := by
  have hne : initialSize ≠ 0 := by
    rintro rfl
    cases hpos
  unfold mzHashTableCreate calloc
  rw [if_neg hne]
  dsimp only
  split
  next hmemory =>
    exact .inr ⟨_, rfl, ⟨roundUpPower2_power hpos hle, List.length_replicate,
      by rw [items_zero, List.length_nil], countTombStones_zero _,
      by simp⟩, hmemory.1⟩
  next hmemory => exact .inl ⟨hmemory, rfl⟩

theorem HashTable.Loaded.size_le (hloaded : table.Loaded)
    (hfits : table.tableSize * 20 < 2 ^ 32) : table.tableSize ≤ 2 ^ 27 := by
  obtain ⟨k, hk⟩ := hloaded.power
  have hlt : 2 ^ k < 2 ^ 28 := by omega
  have hk' := (Nat.pow_lt_pow_iff_right (by omega)).mp hlt
  rw [hk]
  exact Nat.pow_le_pow_right (by omega) (by omega)

end Steps

/-- A request for memory has been refused: for the table itself, or for a
larger one that an adding lookup has come to. -/
def Operation.OutOfMemory [DecidableEq α] (memory : Nat → Bool)
    (initialSize : UInt32) (ops : List (Operation α)) : Prop :=
  ¬ Granted memory (roundUpPower2 initialSize).toNat ∨
    ∃ table, mzHashTableCreate memory initialSize = .ok table ∧
      Operation.RunsOut memory table ops

/-- After every sequence of operations the counts are those of the entries and
within the load, there is an empty entry, and no search has gone round for
ever and no assertion has failed: only memory may have been refused. -/
theorem useTable_loaded [DecidableEq α] (memory : Nat → Bool)
    {initialSize : UInt32} (hpos : 0 < initialSize.toNat)
    (hlt : initialSize.toNat < 2 ^ 27) (ops : List (Operation α)) :
    (Operation.OutOfMemory memory initialSize ops ∧
      useTable memory initialSize ops = .error .noMemory) ∨
    ∃ replies table, useTable memory initialSize ops = .ok (replies, table) ∧
      table.Loaded ∧ table.tableSize ≤ 2 ^ 27 ∧
      ∃ i < table.tableSize, (entry table.pEntries i).data = .null := by
  unfold useTable
  obtain ⟨hrefused, herror⟩ | ⟨table, hcreate, hloaded, hfits⟩ :=
    mzHashTableCreate_loaded (α := α) memory hpos (by omega)
  · left
    refine ⟨.inl hrefused, ?_⟩
    rw [herror]
    rfl
  rw [hcreate]
  obtain ⟨hout, herror⟩ | ⟨replies, last, hok, hlast, hlastFits⟩ :=
    runAll_loaded memory ops hloaded hfits
  · exact .inl ⟨.inr ⟨table, hcreate, hout⟩, herror⟩
  · exact .inr ⟨replies, last, hok, hlast, hlast.size_le hlastFits,
      hlast.exists_null⟩

namespace MinZipHashRunsWitness

/-- Comparisons that never and always match, and hashes that have nothing to
do with the items: the same item is there twice, and goes once. -/
def ops : List (Operation Nat) :=
  [.lookup (fun _ _ => false) 7 1 true, .lookup (fun _ _ => false) 7 1 true,
    .lookup (fun _ _ => true) 8 2 true, .remove 3 1, .remove 7 1,
    .lookup (fun _ _ => false) 7 3 true, .foreach fun n => n - 3,
    .probeCount (fun _ => 7) (· == ·), .clear, .iterate]

theorem useTable_ops :
    ∃ replies table, useTable (fun _ => true) 1 ops = .ok (replies, table) ∧
      table.Loaded ∧ table.tableSize ≤ 2 ^ 27 ∧
      ∃ i < table.tableSize, (entry table.pEntries i).data = .null := by
  have hok : (useTable (fun _ => true) 1 ops).isOk = true := by
    decide +kernel
  obtain ⟨-, herror⟩ | hrun :=
    useTable_loaded (fun _ => true) (show 0 < (1 : UInt32).toNat by decide)
      (by decide) ops
  · rw [herror] at hok
    cases hok
  · exact hrun

end MinZipHashRunsWitness

end MinZipHash

end MetaOS
