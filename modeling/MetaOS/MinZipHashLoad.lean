/-
minzip/Hash.c: the load of the table.  Whatever hashes and comparisons the
callers give, the entries that are not empty stay within the load factor, so
that searches come to an end and the assertions hold.

Adding never uses a tombstone again, and only adding asks for a larger table.
-/
import MetaOS.MinZipHash

namespace MetaOS

namespace MinZipHash

open HashTable Probing

variable {α : Type}

section Entries

variable {entries : List (HashEntry α)}

theorem entry_of_le {i : Nat} (hi : entries.length ≤ i) :
    entry entries i = .zero := by
  simp [entry, List.getElem?_eq_none hi]

theorem entry_set (i j : Nat) (e : HashEntry α) :
    entry (entries.set i e) j =
      if i = j ∧ j < entries.length then e else entry entries j := by
  unfold entry
  rw [List.getD_eq_getElem?_getD, List.getElem?_set,
    List.getD_eq_getElem?_getD]
  by_cases hij : i = j
  · subst hij
    by_cases hlt : i < entries.length
    · simp [hlt]
    · simp [hlt]
  · simp [hij]

theorem lt_of_busy {i : Nat} (hbusy : (entry entries i).data ≠ .null) :
    i < entries.length := by
  by_contra hle
  rw [entry_of_le (Nat.le_of_not_lt hle)] at hbusy
  exact hbusy rfl

theorem eq_take_entry_drop {i : Nat} (hi : i < entries.length) :
    entries.take i ++ entry entries i :: entries.drop (i + 1) = entries := by
  have hget : entry entries i = entries[i] := by simp [entry, hi]
  rw [hget, List.cons_getElem_drop_succ, List.take_append_drop]

theorem set_eq_take_drop {i : Nat} (hi : i < entries.length)
    (e : HashEntry α) :
    entries.set i e = entries.take i ++ e :: entries.drop (i + 1) :=
  List.set_eq_take_cons_drop e hi

/-- The item of one entry. -/
theorem items_cons (e : HashEntry α) (rest : List (HashEntry α)) :
    items (e :: rest) =
      (match e.data with | .item value => [value] | _ => []) ++ items rest := by
  unfold items
  cases hdata : e.data <;> simp [hdata]

theorem items_append (first second : List (HashEntry α)) :
    items (first ++ second) = items first ++ items second := by
  simp [items]

theorem mem_items {x : α} :
    x ∈ items entries ↔ ∃ i, (entry entries i).data = .item x := by
  constructor
  · intro hmem
    obtain ⟨e, he, hdata⟩ := List.mem_filterMap.mp hmem
    obtain ⟨i, hi, rfl⟩ := List.mem_iff_getElem.mp he
    refine ⟨i, ?_⟩
    have hget : entry entries i = entries[i] := by simp [entry, hi]
    rw [hget]
    split at hdata
    next value hvalue => rw [hvalue, Option.some_inj.mp hdata]
    next => simp at hdata
  · rintro ⟨i, hdata⟩
    have hi : i < entries.length := lt_of_busy (by simp [hdata])
    rw [← eq_take_entry_drop hi, items_append, items_cons, hdata]
    simp

theorem items_zero (size : Nat) :
    items (List.replicate size (.zero : HashEntry α)) = [] := by
  simp [items, HashEntry.zero]

/-- An item put into an empty entry. -/
theorem items_set_null {i : Nat} (hi : i < entries.length)
    (hnull : (entry entries i).data = .null) {e : HashEntry α} {x : α}
    (he : e.data = .item x) :
    (items (entries.set i e)).Perm (x :: items entries) := by
  conv_rhs => rw [← eq_take_entry_drop hi]
  rw [set_eq_take_drop hi, items_append, items_append, items_cons, items_cons,
    he, hnull]
  exact List.perm_middle

/-- An item turned into a tombstone. -/
theorem items_set_tombstone {i : Nat} {x : α}
    (hdata : (entry entries i).data = .item x) {e : HashEntry α}
    (he : e.data = .tombstone) :
    (items entries).Perm (x :: items (entries.set i e)) := by
  have hi : i < entries.length := lt_of_busy (by simp [hdata])
  conv_lhs => rw [← eq_take_entry_drop hi]
  rw [set_eq_take_drop hi, items_append, items_append, items_cons, items_cons,
    he, hdata]
  exact List.perm_middle

variable [DecidableEq α]

theorem countTombStones_append (first second : List (HashEntry α)) :
    countTombStones (first ++ second) =
      countTombStones first + countTombStones second := by
  simp [countTombStones]

theorem countTombStones_cons (e : HashEntry α) (rest : List (HashEntry α)) :
    countTombStones (e :: rest) =
      countTombStones rest + if e.data = .tombstone then 1 else 0 := by
  simp [countTombStones, List.countP_cons]

/-- Without an empty entry, every entry is an item or a tombstone. -/
theorem length_of_full (hfull : ∀ e ∈ entries, e.data ≠ .null) :
    entries.length = (items entries).length + countTombStones entries := by
  induction entries with
  | nil => rfl
  | cons e rest ih =>
      have hrest := ih fun e he => hfull e (List.mem_cons_of_mem _ he)
      have hhead := hfull e List.mem_cons_self
      rw [items_cons, countTombStones_cons, List.length_cons, hrest]
      cases hdata : e.data with
      | null => exact absurd hdata hhead
      | tombstone => simp; omega
      | item value => simp; omega

theorem exists_null
    (hroom : (items entries).length + countTombStones entries <
      entries.length) :
    ∃ i < entries.length, (entry entries i).data = .null := by
  by_contra hnone
  push Not at hnone
  have hfull : ∀ e ∈ entries, e.data ≠ .null := by
    intro e he
    obtain ⟨i, hi, rfl⟩ := List.mem_iff_getElem.mp he
    simpa [entry, hi] using hnone i hi
  have hlength := length_of_full hfull
  omega

theorem countTombStones_set_null {i : Nat} (hi : i < entries.length)
    (hnull : (entry entries i).data = .null) {e : HashEntry α} {x : α}
    (he : e.data = .item x) :
    countTombStones (entries.set i e) = countTombStones entries := by
  conv_rhs => rw [← eq_take_entry_drop hi]
  rw [set_eq_take_drop hi, countTombStones_append, countTombStones_append,
    countTombStones_cons, countTombStones_cons, he, hnull]
  simp

theorem countTombStones_set_tombstone {i : Nat} {x : α}
    (hdata : (entry entries i).data = .item x) {e : HashEntry α}
    (he : e.data = .tombstone) :
    countTombStones (entries.set i e) = countTombStones entries + 1 := by
  have hi : i < entries.length := lt_of_busy (by simp [hdata])
  conv_rhs => rw [← eq_take_entry_drop hi]
  rw [set_eq_take_drop hi, countTombStones_append, countTombStones_append,
    countTombStones_cons, countTombStones_cons, he, hdata]
  simp
  omega

/-- A table as `calloc` leaves it has no tombstones. -/
theorem countTombStones_zero (size : Nat) :
    countTombStones (List.replicate size (.zero : HashEntry α)) = 0 := by
  simp [countTombStones, List.countP_replicate, HashEntry.zero]

end Entries

/-- The counts of the table are right and within the load factor. -/
structure HashTable.Loaded [DecidableEq α] (table : HashTable α) : Prop where
  power : ∃ k, table.tableSize = 2 ^ k
  length : table.pEntries.length = table.tableSize
  numEntries : (items table.pEntries).length = table.numEntries
  numDeadEntries : countTombStones table.pEntries = table.numDeadEntries
  load : (table.numEntries + table.numDeadEntries) * LOAD_DENOM ≤
    table.tableSize * LOAD_NUMER

/-- A request for so many entries is granted. -/
def Granted (memory : Nat → Bool) (size : Nat) : Prop :=
  size * 20 < 2 ^ 32 ∧ memory size = true

/-- One more entry asks for a larger table, which is refused. -/
def HashTable.Refused (memory : Nat → Bool) (table : HashTable α) : Prop :=
  table.tableSize * LOAD_NUMER <
      (table.numEntries + 1 + table.numDeadEntries) * LOAD_DENOM ∧
    ¬ Granted memory (table.tableSize * 2)

/-- The empty entry at which a search for the hash comes to an end. -/
structure Spot (entries : List (HashEntry α)) (itemHash : UInt32) (i : Nat) :
    Prop where
  lt : i < entries.length
  null : (entry entries i).data = .null
  path : Path entries.length (fun j => (entry entries j).data ≠ .null)
    itemHash.toNat i

section Search

variable [DecidableEq α] {table : HashTable α}

theorem HashTable.Loaded.size_pos (hloaded : table.Loaded) :
    0 < table.tableSize := by
  obtain ⟨k, hk⟩ := hloaded.power
  rw [hk]
  exact Nat.two_pow_pos k

/-- The load factor leaves an empty entry for searches to stop at. -/
theorem HashTable.Loaded.exists_null (hloaded : table.Loaded) :
    ∃ i < table.tableSize, (entry table.pEntries i).data = .null := by
  have hpos := hloaded.size_pos
  have hload := hloaded.load
  rw [← hloaded.length]
  apply MinZipHash.exists_null
  rw [hloaded.length, hloaded.numEntries, hloaded.numDeadEntries]
  unfold LOAD_DENOM LOAD_NUMER at hload
  omega

theorem wrap_eq {n i : Nat} (hi : i < n) (hn : n ≠ 1) :
    wrap n i = (i + 1) % n := by
  unfold wrap
  rw [if_neg hn]
  split
  next heq => rw [heq, Nat.mod_self]
  next hne => rw [Nat.mod_eq_of_lt (by omega)]

/-- In a table of one entry, that entry is the empty one, so that a search
does not leave it. -/
theorem HashTable.Loaded.wrap_eq (hloaded : table.Loaded)
    (stop : HashEntry α → Bool) : ∀ j < table.tableSize,
      (decide ((entry table.pEntries j).data = .null ∨
        stop (entry table.pEntries j) = true)) = false →
      wrap table.tableSize j = (j + 1) % table.tableSize := by
  intro j hj hgoes
  apply MinZipHash.wrap_eq hj
  intro hone
  obtain ⟨i, hi, hnull⟩ := hloaded.exists_null
  obtain rfl : i = j := by omega
  simp [hnull] at hgoes

/-- A search ends, at the first entry on its way that is empty or where it may
stop. -/
theorem HashTable.Loaded.search_eq (hloaded : table.Loaded)
    (itemHash : UInt32) (stop : HashEntry α → Bool) :
    ∃ d < table.tableSize,
      search table itemHash stop =
        some ((itemHash.toNat + d) % table.tableSize) ∧
      ((entry table.pEntries
          ((itemHash.toNat + d) % table.tableSize)).data = .null ∨
        stop (entry table.pEntries
          ((itemHash.toNat + d) % table.tableSize)) = true) ∧
      ∀ e < d,
        (entry table.pEntries
          ((itemHash.toNat + e) % table.tableSize)).data ≠ .null ∧
        stop (entry table.pEntries
          ((itemHash.toNat + e) % table.tableSize)) = false := by
  obtain ⟨i, hi, hnull⟩ := hloaded.exists_null
  obtain ⟨k, hk⟩ := hloaded.power
  obtain ⟨d, hd, hprobe, hstop, hbefore⟩ := exists_probe
    (wrap table.tableSize)
    (fun i => (entry table.pEntries i).data = .null ∨
      stop (entry table.pEntries i) = true)
    (hloaded.wrap_eq stop) itemHash.toNat hi (by simp [hnull])
    (Nat.le_succ _)
  refine ⟨d, hd, ?_, by simpa using hstop, fun e he => by
    simpa using hbefore e he⟩
  rw [← hprobe]
  unfold search
  rw [hk, Nat.and_two_pow_sub_one_eq_mod]

/-- A search that does not stop before finds a spot for its hash. -/
theorem HashTable.Loaded.search_spot (hloaded : table.Loaded)
    (itemHash : UInt32) (stop : HashEntry α → Bool) :
    ∃ i < table.tableSize, search table itemHash stop = some i ∧
      (Spot table.pEntries itemHash i ∨
        stop (entry table.pEntries i) = true) := by
  have hlength := hloaded.length
  have hpos := hloaded.size_pos
  obtain ⟨d, hd, hsearch, hend, hbefore⟩ := hloaded.search_eq itemHash stop
  refine ⟨_, Nat.mod_lt _ hpos, hsearch, hend.imp_left fun hnull => ?_⟩
  rw [← hlength] at hd hnull hbefore ⊢
  exact ⟨Nat.mod_lt _ (by omega), hnull, d, hd, rfl,
    fun e he => (hbefore e he).1⟩

end Search

section Resize

variable [DecidableEq α]

/-- One item finds a new spot. -/
theorem reinsert_spot {k : Nat} {entries : List (HashEntry α)}
    (hlength : entries.length = 2 ^ k) (hclean : countTombStones entries = 0)
    (hroom : (items entries).length < 2 ^ k) {e : HashEntry α} {x : α}
    (hdata : e.data = .item x) :
    ∃ i, reinsert (2 ^ k) entries e = .ok (entries.set i e) ∧
      Spot entries e.hashValue i := by
  obtain ⟨i, hi, hnull⟩ := @exists_null _ entries _ (by omega)
  rw [hlength] at hi
  obtain ⟨d, hd, hprobe, hstop, hbefore⟩ := exists_probe
    (fun i => (i + 1) &&& (2 ^ k - 1))
    (fun i => (entry entries i).data = .null)
    (fun i _ _ => Nat.and_two_pow_sub_one_eq_mod _ k) e.hashValue.toNat hi
    (by simpa using hnull) le_rfl
  refine ⟨(e.hashValue.toNat + d) % 2 ^ k, ?_, ?_, by simpa using hstop, d, ?_⟩
  · unfold reinsert
    rw [hdata, Nat.and_two_pow_sub_one_eq_mod]
    simp only [hprobe]
  · rw [hlength]
    exact Nat.mod_lt _ (Nat.two_pow_pos k)
  · rw [hlength]
    exact ⟨hd, rfl, fun e he => by simpa using hbefore e he⟩

/-- What the new storage keeps while items are put in their spots. -/
def KeptBySpots (P : List (HashEntry α) → Prop) (old : List (HashEntry α)) :
    Prop :=
  ∀ e ∈ old, ∀ x, e.data = .item x → ∀ entries i,
    Spot entries e.hashValue i → P entries → P (entries.set i e)

/-- All items find a new spot if there is one for each. -/
theorem reinsert_spots {P : List (HashEntry α) → Prop} {k : Nat}
    (old : List (HashEntry α)) (hkept : KeptBySpots P old)
    {entries : List (HashEntry α)} (hlength : entries.length = 2 ^ k)
    (hclean : countTombStones entries = 0) (hentries : P entries)
    (hroom : (items entries).length + (items old).length ≤ 2 ^ k) :
    ∃ entries', old.foldlM (reinsert (2 ^ k)) entries = .ok entries' ∧
      entries'.length = 2 ^ k ∧ countTombStones entries' = 0 ∧ P entries' ∧
      (items entries').Perm (items old ++ items entries) := by
  induction old generalizing entries with
  | nil =>
      exact ⟨entries, rfl, hlength, hclean, hentries, List.Perm.refl _⟩
  | cons e old ih =>
      have hrest : KeptBySpots P old := fun e' he' =>
        hkept e' (List.mem_cons_of_mem _ he')
      rw [items_cons] at hroom ⊢
      cases hdata : e.data with
      | item x =>
          simp only [hdata, List.length_append, List.length_singleton] at hroom
          obtain ⟨i, hinsert, hspot⟩ := reinsert_spot hlength hclean
            (by omega) hdata
          have hperm := items_set_null hspot.lt hspot.null hdata
          obtain ⟨entries', hfold, hlength', hclean', hentries', hperm'⟩ :=
            ih hrest (show (entries.set i e).length = 2 ^ k by
                rw [List.length_set, hlength])
              (by rw [countTombStones_set_null hspot.lt hspot.null hdata,
                hclean])
              (hkept e List.mem_cons_self x hdata entries i hspot hentries)
              (by rw [hperm.length_eq, List.length_cons]; omega)
          refine ⟨entries', ?_, hlength', hclean', hentries', ?_⟩
          · rw [List.foldlM_cons, hinsert]
            exact hfold
          · calc items entries'
                _ |>.Perm (items old ++ items (entries.set i e)) := hperm'
                _ |>.Perm (items old ++ x :: items entries) :=
                  hperm.append_left _
                _ |>.Perm (x :: (items old ++ items entries)) :=
                  List.perm_middle
      | null | tombstone =>
          simp only [hdata, List.nil_append] at hroom ⊢
          obtain ⟨entries', hfold, hkept'⟩ :=
            ih hrest hlength hclean hentries hroom
          refine ⟨entries', ?_, hkept'⟩
          have hskip : reinsert (2 ^ k) entries e = .ok entries := by
            simp only [reinsert, hdata]
          rw [List.foldlM_cons, hskip]
          exact hfold

/-- Doubling the table keeps its items and forgets its tombstones.  It is
called with an item more than the load factor allows. -/
theorem resizeHash_loaded {P : List (HashEntry α) → Prop}
    (memory : Nat → Bool) (table : HashTable α)
    (hpower : ∃ k, table.tableSize = 2 ^ k)
    (hnum : (items table.pEntries).length = table.numEntries)
    (hdead : countTombStones table.pEntries = table.numDeadEntries)
    (hload : table.numEntries ≤ table.tableSize)
    (hzero : ∀ size, P (List.replicate size .zero))
    (hkept : KeptBySpots P table.pEntries) :
    (¬ Granted memory (table.tableSize * 2) ∧
      resizeHash memory table (table.tableSize * 2) = .error .noMemory) ∨
    ∃ table', resizeHash memory table (table.tableSize * 2) = .ok table' ∧
      table'.Loaded ∧ table'.tableSize * 20 < 2 ^ 32 ∧ P table'.pEntries ∧
      (items table'.pEntries).Perm (items table.pEntries) := by
  obtain ⟨k, hk⟩ := hpower
  have hsize : table.tableSize * 2 = 2 ^ (k + 1) := by rw [hk, pow_succ]
  obtain ⟨entries, hfold, hlength, hclean, hentries, hperm⟩ :=
    reinsert_spots table.pEntries hkept
      (List.length_replicate (n := 2 ^ (k + 1))) (countTombStones_zero _)
      (hzero _) (by
        rw [items_zero, hnum, List.length_nil, Nat.zero_add]
        omega)
  rw [items_zero, List.append_nil] at hperm
  unfold resizeHash
  rw [if_neg (by simp [hdead]), hsize]
  unfold calloc
  by_cases hmemory : Granted memory (2 ^ (k + 1))
  · right
    refine ⟨{ table with
      tableSize := 2 ^ (k + 1), numDeadEntries := 0, pEntries := entries },
      ?_, ?_, hmemory.1, hentries, hperm⟩
    · rw [if_pos (show 2 ^ (k + 1) * 20 < 2 ^ 32 ∧ _ from hmemory)]
      simp only [bind, Except.bind, hfold, hclean, ne_eq, not_true_eq_false,
        if_false]
    · refine ⟨⟨k + 1, rfl⟩, hlength, ?_, hclean, ?_⟩
      · rw [hperm.length_eq, hnum]
      · simp only [LOAD_DENOM, LOAD_NUMER]
        omega
  · left
    refine ⟨hmemory, ?_⟩
    rw [if_neg (show ¬ (2 ^ (k + 1) * 20 < 2 ^ 32 ∧ _) from hmemory)]
    rfl

/-- The table with an item in the spot for its hash. -/
def HashTable.add (table : HashTable α) (itemHash : UInt32) (item : α)
    (i : Nat) : HashTable α :=
  { table with
    numEntries := table.numEntries + 1
    pEntries := table.pEntries.set i ⟨itemHash, .item item⟩ }

/-- An item more than the table had is at most one too many. -/
theorem afterAdd_loaded {P : List (HashEntry α) → Prop}
    (memory : Nat → Bool) {table : HashTable α} (hloaded : table.Loaded)
    {itemHash : UInt32} {i : Nat} (hspot : Spot table.pEntries itemHash i)
    (item : α) (hadded : P (table.add itemHash item i).pEntries)
    (hzero : ∀ size, P (List.replicate size .zero))
    (hkept : KeptBySpots P (table.add itemHash item i).pEntries) :
    (table.Refused memory ∧
      afterAdd memory (table.add itemHash item i) = .error .noMemory) ∨
    ∃ table', afterAdd memory (table.add itemHash item i) = .ok table' ∧
      table'.Loaded ∧
      (table'.tableSize = table.tableSize ∨
        table'.tableSize * 20 < 2 ^ 32) ∧
      P table'.pEntries ∧
      (items table'.pEntries).Perm (item :: items table.pEntries) := by
  have hperm : (items (table.add itemHash item i).pEntries).Perm
      (item :: items table.pEntries) :=
    items_set_null hspot.lt hspot.null rfl
  have hnum : (items (table.add itemHash item i).pEntries).length =
      table.numEntries + 1 := by
    rw [hperm.length_eq, List.length_cons, hloaded.numEntries]
  have hdead : countTombStones (table.add itemHash item i).pEntries =
      table.numDeadEntries :=
    (countTombStones_set_null hspot.lt hspot.null rfl).trans
      hloaded.numDeadEntries
  have hpos := hloaded.size_pos
  have hload := hloaded.load
  simp only [LOAD_DENOM, LOAD_NUMER] at hload
  unfold afterAdd
  split
  next hfull =>
    obtain ⟨hrefused, herror⟩ |
      ⟨table', hresize, hloaded', hfits, hentries, hperm'⟩ :=
      resizeHash_loaded memory (table.add itemHash item i) hloaded.power hnum
        hdead
        (show table.numEntries + 1 ≤ table.tableSize by omega) hzero hkept
    · left
      refine ⟨⟨hfull, hrefused⟩, ?_⟩
      rw [herror]
      rfl
    · right
      refine ⟨table', ?_, hloaded', .inr hfits, hentries, hperm'.trans hperm⟩
      have hload' := hloaded'.load
      have hpos' := hloaded'.size_pos
      simp only [LOAD_DENOM, LOAD_NUMER] at hload'
      rw [hresize]
      simp only [bind, Except.bind]
      rw [if_pos (by omega)]
  next hroom =>
    right
    simp only [HashTable.add, LOAD_DENOM, LOAD_NUMER] at hroom
    refine ⟨table.add itemHash item i, ?_, ⟨hloaded.power, ?_, hnum, hdead,
      ?_⟩, .inl rfl, hadded, hperm⟩
    · simp only [bind, Except.bind]
      rw [if_pos]
      dsimp only [HashTable.add]
      omega
    · rw [HashTable.add, List.length_set]
      exact hloaded.length
    · simp only [HashTable.add, LOAD_DENOM, LOAD_NUMER]
      omega

end Resize

section Iteration

variable {table : HashTable α}

/-- An iterator on its way visits the items from there on. -/
theorem visit_eq (hlength : table.pEntries.length = table.tableSize)
    (left i : Nat) (hleft : i + left = table.tableSize) (rounds : Nat)
    (hrounds : left < rounds) :
    visit table rounds (iterScan table left i) =
      (items (table.pEntries.drop i)).map .item := by
  induction left generalizing i rounds with
  | zero =>
      obtain ⟨rounds, rfl⟩ := Nat.exists_eq_succ_of_ne_zero hrounds.ne'
      have hdone : mzHashIterDone table (i : Int) = true := by
        simp [mzHashIterDone, ← hleft]
      rw [iterScan, visit, hdone, List.drop_eq_nil_of_le (by omega)]
      rfl
  | succ left ih =>
      have hi : i < table.pEntries.length := by omega
      have hget : entry table.pEntries i = table.pEntries[i] := by
        simp [entry, hi]
      rw [List.drop_eq_getElem_cons hi, items_cons, ← hget, iterScan]
      cases hdata : (entry table.pEntries i).data with
      | null | tombstone =>
          simp only [List.nil_append]
          exact ih (i + 1) (by omega) rounds (by omega)
      | item value =>
          obtain ⟨rounds, rfl⟩ := Nat.exists_eq_succ_of_ne_zero
            (by omega : rounds ≠ 0)
          have hdone : mzHashIterDone table (i : Int) = false := by
            simp only [mzHashIterDone, decide_eq_false_iff_not]
            omega
          have hnext : mzHashIterNext table (i : Int) =
              iterScan table left (i + 1) := by
            have hto : ((i : Int) + 1).toNat = i + 1 := by omega
            rw [mzHashIterNext, hto,
              show table.tableSize - (i + 1) = left by omega]
          have hhere : mzHashIterData table (i : Int) = .item value := by
            rw [mzHashIterData, Int.toNat_natCast, hdata]
          simp only [visit, hdone, hhere, hnext, Bool.false_eq_true, if_false,
            List.map_cons, List.singleton_append, List.cons.injEq, true_and]
          exact ih (i + 1) (by omega) rounds (by omega)

/-- An iteration visits all items. -/
theorem mzHashIterate_eq (hlength : table.pEntries.length = table.tableSize) :
    mzHashIterate table = (items table.pEntries).map .item := by
  have hvisit := visit_eq hlength table.tableSize 0 (by omega)
    (table.tableSize + 1) (by omega)
  rw [List.drop_zero] at hvisit
  rw [← hvisit]
  rfl

end Iteration

section Creation

/-- Bit `i` of `y` is set if one of the `w` bits of `x` from `i` on is. -/
def Smeared (w x y : Nat) : Prop :=
  ∀ i, y.testBit i = true ↔ ∃ d < w, x.testBit (i + d) = true

theorem smeared_self (x : Nat) : Smeared 1 x x := by
  intro i
  simp

theorem Smeared.double {w x : Nat} {y shift : UInt32}
    (hsmeared : Smeared w x y.toNat) (hshift : shift.toNat % 32 = w) :
    Smeared (w + w) x (y ||| y >>> shift).toNat := by
  intro i
  rw [UInt32.toNat_or, UInt32.toNat_shiftRight, hshift, Nat.testBit_or,
    Nat.testBit_shiftRight, Bool.or_eq_true, hsmeared i, hsmeared (w + i)]
  constructor
  · rintro (⟨d, hd, hbit⟩ | ⟨d, hd, hbit⟩)
    · exact ⟨d, by omega, hbit⟩
    · exact ⟨w + d, by omega, by rwa [show i + (w + d) = w + i + d by omega]⟩
  · rintro ⟨d, hd, hbit⟩
    by_cases hlow : d < w
    · exact .inl ⟨d, hlow, hbit⟩
    · refine .inr ⟨d - w, by omega, ?_⟩
      rwa [show w + i + (d - w) = i + d by omega]

/-- Smeared all the way down, the highest bit fills a number. -/
theorem Smeared.eq_pred {x y : Nat} (hsmeared : Smeared 32 x y)
    (hx : x ≠ 0) (hlt : x < 2 ^ 32) : y = 2 ^ (x.log2 + 1) - 1 := by
  have hlog : x.log2 < 32 := (Nat.log2_lt hx).mpr hlt
  apply Nat.eq_of_testBit_eq
  intro i
  rw [Nat.testBit_two_pow_sub_one, Bool.eq_iff_iff, hsmeared i,
    decide_eq_true_eq]
  constructor
  · rintro ⟨d, -, hbit⟩
    have hle : 2 ^ (i + d) ≤ x := Nat.ge_two_pow_of_testBit hbit
    have hle' := (Nat.le_log2 hx).mpr hle
    omega
  · intro hi
    refine ⟨x.log2 - i, by omega, ?_⟩
    rw [show i + (x.log2 - i) = x.log2 by omega]
    exact Nat.testBit_log2 hx

theorem roundUpPower2_eq {size : UInt32} (hpos : 1 < size.toNat) :
    (roundUpPower2 size).toNat =
      2 ^ ((size.toNat - 1).log2 + 1) % 2 ^ 32 := by
  have hpred : (size - 1).toNat = size.toNat - 1 := by
    rw [UInt32.toNat_sub_of_le]
    · rfl
    · exact UInt32.le_iff_toNat_le.mpr hpos.le
  have hsmeared := ((((smeared_self (size - 1).toNat).double
    (rfl : (1 : UInt32).toNat % 32 = 1)).double
    (rfl : (2 : UInt32).toNat % 32 = 2)).double
    (rfl : (4 : UInt32).toNat % 32 = 4)).double
    (rfl : (8 : UInt32).toNat % 32 = 8) |>.double
    (rfl : (16 : UInt32).toNat % 32 = 16)
  have hlt := (size - 1).toNat_lt
  unfold roundUpPower2
  rw [UInt32.toNat_add, hsmeared.eq_pred (by omega) hlt, UInt32.toNat_one,
    Nat.sub_add_cancel (Nat.two_pow_pos _), hpred]

theorem roundUpPower2_power {size : UInt32} (hpos : 0 < size.toNat)
    (hle : size.toNat ≤ 2 ^ 31) :
    ∃ k, (roundUpPower2 size).toNat = 2 ^ k := by
  by_cases hone : size.toNat = 1
  · obtain rfl : size = 1 := UInt32.toNat_inj.mp hone
    exact ⟨0, rfl⟩
  · have hlog : (size.toNat - 1).log2 < 31 :=
      (Nat.log2_lt (by omega)).mpr (by omega)
    refine ⟨(size.toNat - 1).log2 + 1, ?_⟩
    rw [roundUpPower2_eq (by omega)]
    apply Nat.mod_eq_of_lt
    exact Nat.pow_lt_pow_right (by omega) (by omega)

/-- A size with no power of two above it is rounded up to nothing. -/
theorem roundUpPower2_overflow {size : UInt32} (hlt : 2 ^ 31 < size.toNat) :
    (roundUpPower2 size).toNat = 0 := by
  have hsize := size.toNat_lt
  have hlow : 31 ≤ (size.toNat - 1).log2 :=
    (Nat.le_log2 (by omega)).mpr (by omega)
  have hhigh : (size.toNat - 1).log2 < 32 :=
    (Nat.log2_lt (by omega)).mpr (by omega)
  have hlog : (size.toNat - 1).log2 = 31 := by omega
  rw [roundUpPower2_eq (by omega), hlog, Nat.mod_self]

end Creation

end MinZipHash

end MetaOS
