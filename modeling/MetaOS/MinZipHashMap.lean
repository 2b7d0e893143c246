/-
The hash table of minzip refines a finite map: every sequence of operations
is answered as the map answers it.
-/
import MetaOS.MinZipHashLoad

namespace MetaOS

namespace MinZipHash

open HashTable Probing

variable {α : Type}

/-- Every item is where a search for it comes by. -/
def Placed (hash : α → UInt32) (entries : List (HashEntry α)) : Prop :=
  ∀ i x, (entry entries i).data = .item x →
    (entry entries i).hashValue = hash x ∧
      Path entries.length (fun j => (entry entries j).data ≠ .null)
        (hash x).toNat i

/-- No two items have the same key. -/
def Distinct (cmpFunc : α → α → Bool) (entries : List (HashEntry α)) : Prop :=
  (items entries).Pairwise fun x y => cmpFunc x y = false

section Invariants

variable {cmpFunc : α → α → Bool} {hash : α → UInt32}
  {entries : List (HashEntry α)}

theorem Keyed.symm_false (hkeyed : Keyed cmpFunc hash) {x y : α}
    (hxy : cmpFunc x y = false) : cmpFunc y x = false := by
  rw [← Bool.not_eq_true] at hxy ⊢
  exact fun hyx => hxy (hkeyed.symm hyx)

theorem Distinct.nodup (hkeyed : Keyed cmpFunc hash)
    (hdistinct : Distinct cmpFunc entries) : (items entries).Nodup := by
  apply List.Pairwise.imp _ hdistinct
  rintro x y hxy rfl
  rw [hkeyed.refl] at hxy
  exact absurd hxy (by simp)

/-- Filling an empty entry at the end of a path keeps every item placed. -/
theorem Placed.set_null (hplaced : Placed hash entries) {i : Nat} {x : α}
    (hi : i < entries.length)
    (hpath : Path entries.length (fun j => (entry entries j).data ≠ .null)
      (hash x).toNat i) :
    Placed hash (entries.set i ⟨hash x, .item x⟩) := by
  have hbusy : ∀ j, (entry entries j).data ≠ .null →
      (entry (entries.set i ⟨hash x, .item x⟩) j).data ≠ .null := by
    intro j hj
    rw [entry_set]
    split
    · simp
    · exact hj
  intro j y hdata
  rw [List.length_set]
  by_cases hij : i = j
  · subst hij
    rw [entry_set, if_pos ⟨rfl, hi⟩] at hdata ⊢
    obtain rfl : x = y := Data.item.inj hdata
    exact ⟨rfl, hpath.mono hbusy⟩
  · rw [entry_set, if_neg (by simp [hij])] at hdata ⊢
    obtain ⟨hhash, hpath'⟩ := hplaced j y hdata
    exact ⟨hhash, hpath'.mono hbusy⟩

/-- Items are put where a search for them comes by. -/
theorem Placed.keptBySpots {old : List (HashEntry α)}
    (hold : Placed hash old) : KeptBySpots (Placed hash) old := by
  intro e he x hdata entries i hspot hentries
  obtain ⟨j, hj, rfl⟩ := List.mem_iff_getElem.mp he
  have hget : entry old j = old[j] := by simp [entry, hj]
  have hhash : old[j].hashValue = hash x := by
    rw [← hget] at hdata ⊢
    exact (hold j x hdata).1
  have hentry : old[j] = ⟨hash x, .item x⟩ := by
    rw [← hhash, ← hdata]
  rw [hhash] at hspot
  rw [hentry]
  exact hentries.set_null hspot.lt hspot.path

theorem Placed.set_tombstone (hplaced : Placed hash entries) {i : Nat}
    {e : HashEntry α} (he : e.data = .tombstone) :
    Placed hash (entries.set i e) := by
  have hbusy : ∀ j, (entry entries j).data ≠ .null →
      (entry (entries.set i e) j).data ≠ .null := by
    intro j hj
    rw [entry_set]
    split
    · simp [he]
    · exact hj
  intro j y hdata
  rw [List.length_set]
  rw [entry_set] at hdata ⊢
  split at hdata
  next => simp [he] at hdata
  next hne =>
    rw [if_neg hne]
    obtain ⟨hhash, hpath⟩ := hplaced j y hdata
    exact ⟨hhash, hpath.mono hbusy⟩

/-- The items stay distinct when one with a new key is added. -/
theorem Distinct.add (hkeyed : Keyed cmpFunc hash)
    (hdistinct : Distinct cmpFunc entries) {x : α}
    {entries' : List (HashEntry α)}
    (hperm : (items entries').Perm (x :: items entries))
    (hnew : ∀ y ∈ items entries, cmpFunc y x = false) :
    Distinct cmpFunc entries' := by
  refine (hperm.pairwise_iff hkeyed.symm_false).mpr
    (List.pairwise_cons.mpr ⟨?_, hdistinct⟩)
  intro y hy
  exact hkeyed.symm_false (hnew y hy)

theorem Distinct.drop (hkeyed : Keyed cmpFunc hash)
    (hdistinct : Distinct cmpFunc entries) {x : α}
    {entries' : List (HashEntry α)}
    (hperm : (items entries).Perm (x :: items entries')) :
    Distinct cmpFunc entries' := by
  have hpairwise := (hperm.pairwise_iff hkeyed.symm_false).mp hdistinct
  exact (List.pairwise_cons.mp hpairwise).2

end Invariants

/-- What holds of a table between two operations. -/
structure HashTable.Valid [DecidableEq α] (cmpFunc : α → α → Bool)
    (hash : α → UInt32) (table : HashTable α) : Prop where
  power : ∃ k, table.tableSize = 2 ^ k
  length : table.pEntries.length = table.tableSize
  numEntries : (items table.pEntries).length = table.numEntries
  numDeadEntries : countTombStones table.pEntries = table.numDeadEntries
  load : (table.numEntries + table.numDeadEntries) * LOAD_DENOM ≤
    table.tableSize * LOAD_NUMER
  placed : Placed hash table.pEntries
  distinct : Distinct cmpFunc table.pEntries

section Search

variable [DecidableEq α] {cmpFunc : α → α → Bool} {hash : α → UInt32}
  {table : HashTable α}

theorem HashTable.Valid.loaded (hvalid : table.Valid cmpFunc hash) :
    table.Loaded :=
  ⟨hvalid.power, hvalid.length, hvalid.numEntries, hvalid.numDeadEntries,
    hvalid.load⟩

theorem HashTable.Valid.size_pos (hvalid : table.Valid cmpFunc hash) :
    0 < table.tableSize :=
  hvalid.loaded.size_pos

/-- A search that ends at an empty entry has not missed an item it would have
stopped at. -/
theorem not_stop_of_null (hvalid : table.Valid cmpFunc hash)
    {itemHash : UInt32} (stop : HashEntry α → Bool) {d : Nat}
    (hnull : (entry table.pEntries
      ((itemHash.toNat + d) % table.tableSize)).data = .null)
    (hbefore : ∀ e < d,
      (entry table.pEntries
        ((itemHash.toNat + e) % table.tableSize)).data ≠ .null ∧
      stop (entry table.pEntries
        ((itemHash.toNat + e) % table.tableSize)) = false)
    {i : Nat} {x : α} (hdata : (entry table.pEntries i).data = .item x)
    (hhash : hash x = itemHash) : stop (entry table.pEntries i) = false := by
  obtain ⟨-, d', hd', rfl, hpath⟩ := hvalid.placed i x hdata
  rw [hvalid.length, hhash] at *
  rcases Nat.lt_trichotomy d' d with hlt | rfl | hgt
  · exact (hbefore d' hlt).2
  · rw [hnull] at hdata
    cases hdata
  · exact absurd hnull (hpath d hgt)

end Search

section Storage

variable [DecidableEq α] {cmpFunc : α → α → Bool} {hash : α → UInt32}

/-- Storage without tombstones, with every item placed. -/
structure Rehashed (hash : α → UInt32) (size : Nat)
    (entries : List (HashEntry α)) : Prop where
  length : entries.length = size
  noTombStones : countTombStones entries = 0
  placed : Placed hash entries

theorem rehashed_zero (size : Nat) :
    Rehashed hash size (List.replicate size (.zero : HashEntry α)) := by
  have hzero : ∀ i,
      entry (List.replicate size (.zero : HashEntry α)) i = .zero := by
    intro i
    by_cases hi : i < size
    · simp [entry, hi]
    · exact entry_of_le (by simpa using hi)
  refine ⟨List.length_replicate, ?_, ?_⟩
  · exact countTombStones_zero size
  · intro i x hdata
    rw [hzero] at hdata
    cases hdata

end Storage

section Refinement

variable [DecidableEq α] {cmpFunc : α → α → Bool} {hash : α → UInt32}
  {table : HashTable α}

/-- The table stands for the map. -/
structure Represents (cmpFunc : α → α → Bool) (hash : α → UInt32)
    (table : HashTable α) (map : Finset α) : Prop where
  valid : table.Valid cmpFunc hash
  items : (HashTable.items table.pEntries).toFinset = map

theorem Represents.mem_iff {map : Finset α}
    (hrep : Represents cmpFunc hash table map) {x : α} :
    x ∈ map ↔ ∃ i, (entry table.pEntries i).data = .item x := by
  rw [← hrep.items, List.mem_toFinset, mem_items]

/-- The step of an operation: it is answered as the map answers it, unless the
memory for a larger table is missing. -/
def Refines (memory : Nat → Bool) (cmpFunc : α → α → Bool)
    (hash : α → UInt32) (table : HashTable α) (map : Finset α) (op : Op α) :
    Prop :=
  ((∃ item, op = .lookup item true) ∧ table.Refused memory ∧
    perform memory cmpFunc hash table op = .error .noMemory) ∨
  ∃ answer table' map', perform memory cmpFunc hash table op =
      .ok (answer, table') ∧
    MapStep cmpFunc map op answer map' ∧ Represents cmpFunc hash table' map'

/-- An item with a new key in the entry where the search for it has ended. -/
theorem afterAdd_represents (hkeyed : Keyed cmpFunc hash)
    (memory : Nat → Bool) {map : Finset α}
    (hrep : Represents cmpFunc hash table map) {i : Nat} {x : α}
    (hnull : (entry table.pEntries i).data = .null)
    (hi : i < table.pEntries.length)
    (hpath : Path table.pEntries.length
      (fun j => (entry table.pEntries j).data ≠ .null) (hash x).toNat i)
    (hnew : ∀ y ∈ map, cmpFunc y x = false) {added : HashTable α}
    (hadded : added = { table with
      numEntries := table.numEntries + 1
      pEntries := table.pEntries.set i ⟨hash x, .item x⟩ }) :
    (table.Refused memory ∧ afterAdd memory added = .error .noMemory) ∨
    ∃ table', afterAdd memory added = .ok table' ∧
      Represents cmpFunc hash table' (insert x map) := by
  have hvalid := hrep.valid
  have hplaced : Placed hash added.pEntries := by
    rw [hadded]
    exact hvalid.placed.set_null hi hpath
  subst hadded
  obtain herror | ⟨table', hok, hloaded, -, hplaced', hperm⟩ :=
    afterAdd_loaded memory hvalid.loaded ⟨hi, hnull, hpath⟩ x hplaced
      (fun size => (rehashed_zero size).placed) hplaced.keptBySpots
  · exact .inl herror
  · refine .inr ⟨table', hok, ⟨hloaded.power, hloaded.length,
      hloaded.numEntries, hloaded.numDeadEntries, hloaded.load, hplaced',
      hvalid.distinct.add hkeyed hperm ?_⟩, ?_⟩
    · intro y hy
      apply hnew
      rw [← hrep.items]
      exact List.mem_toFinset.mpr hy
    · rw [List.toFinset_eq_of_perm _ _ hperm, List.toFinset_cons, hrep.items]

theorem lookup_refines (hkeyed : Keyed cmpFunc hash) (memory : Nat → Bool)
    {map : Finset α} (hrep : Represents cmpFunc hash table map) (x : α)
    (doAdd : Bool) :
    Refines memory cmpFunc hash table map (.lookup x doAdd) := by
  have hvalid := hrep.valid
  have hlength := hvalid.length
  have hpos := hvalid.size_pos
  unfold Refines perform
  dsimp only
  generalize hlookup :
    mzHashTableLookup memory cmpFunc table (hash x) x doAdd = found
  unfold mzHashTableLookup at hlookup
  extract_lets isMatch at hlookup
  rw [if_neg hpos.ne'] at hlookup
  obtain ⟨d, hd, hsearch, hend, hbefore⟩ :=
    hvalid.loaded.search_eq (hash x) isMatch
  rw [hsearch] at hlookup
  have hlt :
      ((hash x).toNat + d) % table.tableSize < table.pEntries.length := by
    rw [hlength]
    exact Nat.mod_lt _ hpos
  generalize hi : ((hash x).toNat + d) % table.tableSize = i at *
  dsimp only at hlookup
  cases hdata : (entry table.pEntries i).data with
  | tombstone =>
      simp [hdata, isMatch] at hend
  | item value =>
      right
      rw [hdata] at hlookup
      subst hlookup
      refine ⟨.found (some value), table, map, rfl, ?_, hrep⟩
      have hmatch : cmpFunc value x = true := by
        have hmatch : isMatch (entry table.pEntries i) = true := by
          simpa [hdata] using hend
        simp only [isMatch, hdata, decide_eq_true_eq] at hmatch
        exact hmatch.2
      exact .present (hrep.mem_iff.mpr ⟨i, hdata⟩) hmatch
  | null =>
      rw [hdata] at hlookup
      have habsent : ∀ y ∈ map, cmpFunc y x = false := by
        intro y hy
        obtain ⟨j, hj⟩ := hrep.mem_iff.mp hy
        rw [← Bool.not_eq_true]
        intro hkey
        have hhash := hkeyed.hash_eq hkey
        have hmiss :=
          not_stop_of_null hvalid isMatch (hi ▸ hdata) hbefore hj hhash
        simp [isMatch, hj, (hvalid.placed j y hj).1, hhash, hkey] at hmiss
      cases doAdd with
      | false =>
          subst hlookup
          exact .inr ⟨.found none, table, map, rfl, .absent habsent, hrep⟩
      | true =>
          have hpath : Path table.pEntries.length
              (fun j => (entry table.pEntries j).data ≠ .null)
              (hash x).toNat i := by
            refine ⟨d, by omega, by rw [hlength, hi], ?_⟩
            intro e he
            rw [hlength]
            exact (hbefore e he).1
          obtain ⟨hrefused, herror⟩ | ⟨table', hadd, hrep'⟩ :=
            afterAdd_represents hkeyed memory hrep hdata hlt hpath habsent rfl
          · left
            refine ⟨⟨x, rfl⟩, hrefused, ?_⟩
            simp only [if_true, herror, bind, Except.bind] at hlookup
            subst hlookup
            rfl
          · right
            simp only [if_true, hadd, bind, Except.bind] at hlookup
            subst hlookup
            exact ⟨.found (some x), table', insert x map, rfl, .added habsent,
              hrep'⟩

theorem remove_refines (hkeyed : Keyed cmpFunc hash) (memory : Nat → Bool)
    {map : Finset α} (hrep : Represents cmpFunc hash table map) (x : α) :
    Refines memory cmpFunc hash table map (.remove x) := by
  have hvalid := hrep.valid
  have hpos := hvalid.size_pos
  right
  unfold perform mzHashTableRemove
  simp only [if_neg hpos.ne']
  obtain ⟨d, hd, hsearch, hend, hbefore⟩ := hvalid.loaded.search_eq (hash x)
    (fun e => decide (e.data = .item x))
  rw [hsearch]
  generalize hi : ((hash x).toNat + d) % table.tableSize = i at *
  dsimp only
  by_cases hnull : (entry table.pEntries i).data = .null
  · refine ⟨.removed false, table, map, ?_, .notThere ?_, hrep⟩
    · rw [if_pos hnull]
      rfl
    · intro hmem
      obtain ⟨j, hj⟩ := hrep.mem_iff.mp hmem
      have hmiss := not_stop_of_null hvalid
        (fun e => decide (e.data = .item x)) (hi ▸ hnull) hbefore hj rfl
      simp [hj] at hmiss
  · have hdata : (entry table.pEntries i).data = .item x := by
      simpa [hnull] using hend
    have hperm := items_set_tombstone hdata
      (show ({ entry table.pEntries i with data := .tombstone } :
        HashEntry α).data = .tombstone from rfl)
    have hlength := hperm.length_eq
    rw [List.length_cons, hvalid.numEntries] at hlength
    refine ⟨.removed true, _, map.erase x, by rw [if_neg hnull]; rfl,
      .removed (hrep.mem_iff.mpr ⟨i, hdata⟩), ⟨?_, ?_⟩⟩
    · refine ⟨hvalid.power, ?_, ?_, ?_, ?_, hvalid.placed.set_tombstone rfl,
        hvalid.distinct.drop hkeyed hperm⟩
      · rw [List.length_set]
        exact hvalid.length
      · dsimp only
        rw [hlength, Nat.add_sub_cancel]
      · rw [countTombStones_set_tombstone hdata rfl, hvalid.numDeadEntries]
      · have hload := hvalid.load
        simp only [LOAD_DENOM, LOAD_NUMER] at hload ⊢
        omega
    · have hnodup := hperm.nodup_iff.mp (hvalid.distinct.nodup hkeyed)
      have hnot := (List.nodup_cons.mp hnodup).1
      rw [← hrep.items, List.toFinset_eq_of_perm _ _ hperm,
        List.toFinset_cons, Finset.erase_insert]
      simpa using hnot

theorem clear_refines (memory : Nat → Bool) (hkeyed : Keyed cmpFunc hash)
    {map : Finset α} (hrep : Represents cmpFunc hash table map) :
    Refines memory cmpFunc hash table map .clear := by
  have hvalid := hrep.valid
  right
  refine ⟨.freed (items table.pEntries), _, ∅, rfl,
    .cleared (hvalid.distinct.nodup hkeyed) hrep.items, ⟨?_, ?_⟩⟩
  · have hnull : ∀ i,
        (entry (mzHashTableClear table).2.pEntries i).data = .null := by
      intro i
      by_cases hi : i < table.pEntries.length
      · simp [mzHashTableClear, entry, hi]
      · rw [entry_of_le (by simpa [mzHashTableClear] using hi)]
        rfl
    refine ⟨hvalid.power, ?_, ?_, ?_, ?_, ?_, ?_⟩
    · simpa [mzHashTableClear] using hvalid.length
    · simp [items]
    · simp [countTombStones]
    · simp
    · intro i x hdata
      exact absurd ((hnull i).symm.trans hdata) (by simp)
    · simp [Distinct, items]
  · simp [items]

theorem iterate_refines (memory : Nat → Bool) (hkeyed : Keyed cmpFunc hash)
    {map : Finset α} (hrep : Represents cmpFunc hash table map) :
    Refines memory cmpFunc hash table map .iterate := by
  have hvalid := hrep.valid
  right
  refine ⟨.visited ((items table.pEntries).map .item), table, map, ?_,
    .visited (hvalid.distinct.nodup hkeyed) hrep.items, hrep⟩
  rw [perform, mzHashIterate_eq hvalid.length]

theorem perform_refines (hkeyed : Keyed cmpFunc hash) (memory : Nat → Bool)
    {map : Finset α} (hrep : Represents cmpFunc hash table map) (op : Op α) :
    Refines memory cmpFunc hash table map op := by
  cases op with
  | lookup item doAdd => exact lookup_refines hkeyed memory hrep item doAdd
  | remove item => exact remove_refines hkeyed memory hrep item
  | clear => exact clear_refines memory hkeyed hrep
  | iterate => exact iterate_refines memory hkeyed hrep

/-- The operations come to an adding lookup for which the memory is refused,
and all of them before it have returned. -/
def Op.RunsOut (memory : Nat → Bool) (cmpFunc : α → α → Bool)
    (hash : α → UInt32) (table : HashTable α) (ops : List (Op α)) : Prop :=
  ∃ before item after answers table',
    ops = before ++ .lookup item true :: after ∧
    performAll memory cmpFunc hash table before = .ok (answers, table') ∧
    table'.Refused memory

theorem Op.RunsOut.cons {memory : Nat → Bool} {op : Op α} {ops : List (Op α)}
    {answer : Answer α} {table' : HashTable α}
    (hok : perform memory cmpFunc hash table op = .ok (answer, table'))
    (hout : Op.RunsOut memory cmpFunc hash table' ops) :
    Op.RunsOut memory cmpFunc hash table (op :: ops) := by
  obtain ⟨before, item, after, answers, last, rfl, hbefore, hrefused⟩ := hout
  refine ⟨op :: before, item, after, answer :: answers, last, rfl, ?_, hrefused⟩
  rw [performAll, hok]
  simp only [bind, Except.bind, hbefore]

/-- A whole sequence of operations is answered as the map answers it. -/
theorem performAll_refines (hkeyed : Keyed cmpFunc hash)
    (memory : Nat → Bool) (ops : List (Op α)) {map : Finset α}
    (hrep : Represents cmpFunc hash table map) :
    (Op.RunsOut memory cmpFunc hash table ops ∧
      performAll memory cmpFunc hash table ops = .error .noMemory) ∨
    ∃ answers table' map', performAll memory cmpFunc hash table ops =
        .ok (answers, table') ∧
      MapRun cmpFunc map ops answers map' := by
  induction ops generalizing table map with
  | nil => exact .inr ⟨[], table, map, rfl, .nil map⟩
  | cons op ops ih =>
      obtain ⟨⟨item, rfl⟩, hrefused, herror⟩ |
        ⟨answer, table', map', hok, hstep, hrep'⟩ :=
        perform_refines hkeyed memory hrep op
      · left
        refine ⟨⟨[], item, ops, [], table, rfl, rfl, hrefused⟩, ?_⟩
        rw [performAll, herror]
        rfl
      · obtain ⟨hout, herror⟩ | ⟨answers, last, mapLast, hrest, hrun⟩ :=
          ih hrep'
        · left
          refine ⟨hout.cons hok, ?_⟩
          rw [performAll, hok]
          simp only [bind, Except.bind, herror]
        · right
          refine ⟨answer :: answers, last, mapLast, ?_, .cons hstep hrun⟩
          rw [performAll, hok]
          simp only [bind, Except.bind, hrest]

theorem mzHashTableCreate_cases (α : Type) (memory : Nat → Bool)
    {initialSize : UInt32} (hsize : initialSize ≠ 0) :
    (¬ Granted memory (roundUpPower2 initialSize).toNat ∧
      (mzHashTableCreate memory initialSize : Except Failure (HashTable α)) =
        .error .noMemory) ∨
    (mzHashTableCreate memory initialSize : Except Failure (HashTable α)) =
      .ok ⟨(roundUpPower2 initialSize).toNat, 0, 0,
        List.replicate (roundUpPower2 initialSize).toNat .zero⟩ := by
  unfold mzHashTableCreate calloc
  rw [if_neg hsize]
  dsimp only
  split
  next => exact .inr rfl
  next hmemory => exact .inl ⟨hmemory, rfl⟩

/-- An empty table of a power of two entries stands for the empty map. -/
theorem represents_empty {size k : Nat} (hsize : size = 2 ^ k) :
    Represents cmpFunc hash
      (⟨size, 0, 0, List.replicate size .zero⟩ : HashTable α) ∅ := by
  have hzero : Rehashed hash size (List.replicate size (.zero : HashEntry α)) :=
    rehashed_zero size
  refine ⟨⟨⟨k, hsize⟩, hzero.length, ?_, hzero.noTombStones, ?_, hzero.placed,
    ?_⟩, ?_⟩
  · rw [items_zero]
    rfl
  · simp
  · simp [Distinct, items_zero]
  · simp [items_zero]

/-- In a table without entries, every search is stopped by the assertion on
its size. -/
theorem performAll_noEntries (cmpFunc : α → α → Bool)
    (hash : α → UInt32) (memory : Nat → Bool) (ops : List (Op α)) :
    (∃ answers table map,
      performAll memory cmpFunc hash (⟨0, 0, 0, []⟩ : HashTable α) ops =
        .ok (answers, table) ∧ MapRun cmpFunc ∅ ops answers map) ∨
    performAll memory cmpFunc hash (⟨0, 0, 0, []⟩ : HashTable α) ops =
      .error .assertion := by
  induction ops with
  | nil => exact .inl ⟨[], _, ∅, rfl, .nil ∅⟩
  | cons op ops ih =>
      have hcons : ∀ answer,
          perform memory cmpFunc hash (⟨0, 0, 0, []⟩ : HashTable α) op =
            .ok (answer, ⟨0, 0, 0, []⟩) →
          MapStep cmpFunc ∅ op answer ∅ →
          (∃ answers table map,
            performAll memory cmpFunc hash (⟨0, 0, 0, []⟩ : HashTable α)
              (op :: ops) = .ok (answers, table) ∧
            MapRun cmpFunc ∅ (op :: ops) answers map) ∨
          performAll memory cmpFunc hash (⟨0, 0, 0, []⟩ : HashTable α)
            (op :: ops) = .error .assertion := by
        intro answer hperform hstep
        rw [performAll, hperform]
        simp only [bind, Except.bind]
        obtain ⟨answers, table, map, hrest, hrun⟩ | herror := ih
        · left
          rw [hrest]
          exact ⟨_, table, map, rfl, .cons hstep hrun⟩
        · right
          rw [herror]
      cases op with
      | lookup item doAdd => exact .inr rfl
      | remove item => exact .inr rfl
      | clear => exact hcons _ rfl (.cleared List.nodup_nil rfl)
      | iterate =>
          exact hcons (.visited (([] : List α).map .item)) rfl
            (.visited List.nodup_nil rfl)

/-- A request for memory has been refused: for the table itself, or for a
larger one that an adding lookup has come to. -/
def Op.OutOfMemory (memory : Nat → Bool) (cmpFunc : α → α → Bool)
    (hash : α → UInt32) (initialSize : UInt32) (ops : List (Op α)) : Prop :=
  ¬ Granted memory (roundUpPower2 initialSize).toNat ∨
    ∃ table, mzHashTableCreate memory initialSize = .ok table ∧
      Op.RunsOut memory cmpFunc hash table ops

/-- For every comparison that is an equivalence consistent with the hash, a
table answers every sequence of operations as a finite map does: no item is
lost, duplicated or resurrected, and an iteration meets every item once.  The
exceptions are that a request for memory is refused, and that an assertion
stops the program because the size asked for is not one a table can have. -/
theorem session_refines_map (hkeyed : Keyed cmpFunc hash)
    (memory : Nat → Bool) (initialSize : UInt32) (ops : List (Op α)) :
    (Op.OutOfMemory memory cmpFunc hash initialSize ops ∧
      session memory cmpFunc hash initialSize ops = .error .noMemory) ∨
    (∃ answers table map,
      session memory cmpFunc hash initialSize ops = .ok (answers, table) ∧
      MapRun cmpFunc ∅ ops answers map) ∨
    ((initialSize.toNat = 0 ∨ 2 ^ 31 < initialSize.toNat) ∧
      session memory cmpFunc hash initialSize ops = .error .assertion) := by
  by_cases hzero : initialSize = 0
  · right; right
    rw [session, hzero]
    exact ⟨.inl rfl, rfl⟩
  have hpos : 0 < initialSize.toNat := by
    rw [Nat.pos_iff_ne_zero]
    exact fun hnat => hzero (UInt32.toNat_inj.mp hnat)
  obtain ⟨hrefused, herror⟩ | hcreate :=
    mzHashTableCreate_cases (α) memory hzero
  · left
    refine ⟨.inl hrefused, ?_⟩
    rw [session, herror]
    rfl
  rw [session, hcreate]
  simp only [bind, Except.bind]
  by_cases hle : initialSize.toNat ≤ 2 ^ 31
  · obtain ⟨k, hk⟩ := roundUpPower2_power hpos hle
    obtain ⟨hout, herror⟩ | hok :=
      performAll_refines hkeyed memory ops (represents_empty hk)
    · exact .inl ⟨.inr ⟨_, hcreate, hout⟩, herror⟩
    · exact .inr (.inl hok)
  · rw [roundUpPower2_overflow (by omega)]
    obtain hok | herror := performAll_noEntries cmpFunc hash memory ops
    · exact .inr (.inl hok)
    · exact .inr (.inr ⟨.inr (by omega), herror⟩)

end Refinement

namespace MinZipHashMapWitness

/-- Pairs are compared by their first component only. -/
def sameKey (x y : Nat × Nat) : Bool := x.1 = y.1

def keyHash (x : Nat × Nat) : UInt32 := UInt32.ofNat (x.1 % 2)

theorem keyed : Keyed sameKey keyHash where
  refl x := by simp [sameKey]
  symm hxy := by
    simp only [sameKey, decide_eq_true_eq] at hxy ⊢
    exact hxy.symm
  trans hxy hyz := by
    simp only [sameKey, decide_eq_true_eq] at hxy hyz ⊢
    exact hxy.trans hyz
  hash_eq hxy := by
    simp only [sameKey, decide_eq_true_eq] at hxy
    rw [keyHash, hxy, keyHash]

/-- Three keys of one hash grow a table of one entry; one is removed and
comes back behind its tombstone. -/
def ops : List (Op (Nat × Nat)) :=
  [.lookup (1, 10) true, .lookup (3, 30) true, .lookup (5, 50) true,
    .remove (3, 30), .lookup (5, 51) true, .lookup (3, 31) true, .iterate,
    .clear, .lookup (1, 10) false]

theorem session_ops : ∃ answers table map,
    session (fun _ => true) sameKey keyHash 1 ops = .ok (answers, table) ∧
      MapRun sameKey ∅ ops answers map := by
  have hok : (session (fun _ => true) sameKey keyHash 1 ops).isOk = true := by
    decide +kernel
  obtain ⟨-, herror⟩ | hrun | ⟨-, herror⟩ :=
    session_refines_map keyed (fun _ => true) 1 ops
  · rw [herror] at hok
    cases hok
  · exact hrun
  · rw [herror] at hok
    cases hok

end MinZipHashMapWitness

end MinZipHash

end MetaOS
