/-
`bsdiff.c`: the index of the old data is made by `qsufsort`, which sorts its
suffixes by their first byte and then tells them apart by twice as many bytes
in each pass.  `V` holds the rank of each suffix; the suffixes of a group
stand together in `I`.  An access outside an array makes a run fail.  Ranks
are never negative, so `V` has natural numbers; what the arrays hold at first
does not matter.
-/
import MetaOS.Bsdiff
import MetaOS.SuffixGroups
import MetaOS.ThreeWayPartition

namespace MetaOS

namespace Bsdiff

open ThreeWay SuffixRanks

/-- The two arrays of the sort. -/
structure Arrays where
  I : List Int
  V : List Nat

/-- `I[i]=value`. -/
def store (I : List Int) (i : Nat) (value : Int) : Option (List Int) :=
  if i < I.length then some (I.set i value) else none

/-- `if(condition) I[i]=value`. -/
def storeIf (condition : Prop) [Decidable condition] (I : List Int) (i : Nat)
    (value : Int) : Option (List Int) :=
  if condition then store I i value else some I

/-- `V[p+h]`. -/
def keyAt (V : List Nat) (h : Nat) (p : Int) : Option Nat :=
  if 0 ≤ p + h then V[(p + h).toNat]? else none

/-- `V[p]=rank` for the entries `p` from `I[k]` on. -/
def setRanks (I : List Int) (rank : Nat) :
    (count k : Nat) → List Nat → Option (List Nat)
  | 0, _, V => some V
  | count + 1, k, V => do
      let p ← I[k]?
      if 0 ≤ p ∧ p.toNat < V.length then
        setRanks I rank count (k + 1) (V.set p.toNat rank)
      else none

/-- `split` for less than 16 entries: the group with the least key is
brought to `k` and gets a rank, until `stop` is reached. -/
def splitShort (h stop : Nat) : (fuel k : Nat) → Arrays → Option Arrays
  | 0, _, _ => none
  | fuel + 1, k, a =>
      if k < stop then do
        let p ← a.I[k]?
        let x ← keyAt a.V h p
        let (j, I) ← gatherLeast (keyAt a.V h) k (stop - k - 1) 1 1 x a.I
        let V ← setRanks I (k + j - 1) j k a.V
        let I ← storeIf (j = 1) I k (-1)
        splitShort h stop fuel (k + j) ⟨I, V⟩
      else some a

/-- `split`: the `len` entries from `start` on, which are in one group, are
told apart by the ranks of the suffixes `h` behind. -/
def split (h : Nat) : (fuel start len : Nat) → Arrays → Option Arrays
  | 0, _, _, _ => none
  | fuel + 1, start, len, a =>
      if len < 16 then splitShort h (start + len) (len + 1) start a
      else do
        let p ← a.I[start + len / 2]?
        let x ← keyAt a.V h p
        let (less, equal) ← countKeys (keyAt a.V h) x len start 0 0 a.I
        let jj := start + less
        let kk := jj + equal
        let (j, k, I) ← fillLow (keyAt a.V h) x jj kk (len + 1) start 0 0 a.I
        let I ← fillMiddle (keyAt a.V h) x jj kk (len + 1) j k I
        let a ← (if jj > start then split h fuel start (jj - start) ⟨I, a.V⟩
          else some ⟨I, a.V⟩)
        let V ← setRanks a.I (kk - 1) (kk - jj) jj a.V
        let I ← storeIf (jj = kk - 1) a.I jj (-1)
        if start + len > kk then split h fuel kk (start + len - kk) ⟨I, V⟩
        else some ⟨I, V⟩

/-- `buckets[old[i]]++`. -/
def countBytes : Bytes → List Nat → Option (List Nat)
  | [], buckets => some buckets
  | c :: rest, buckets => do
      let n ← buckets[c.toNat]?
      countBytes rest (buckets.set c.toNat (n + 1))

/-- `buckets[i]+=buckets[i-1]`, upwards. -/
def sumBuckets : (count i : Nat) → List Nat → Option (List Nat)
  | 0, _, buckets => some buckets
  | count + 1, i, buckets => do
      let x ← buckets[i]?
      let y ← buckets[i - 1]?
      sumBuckets count (i + 1) (buckets.set i (x + y))

/-- `buckets[i]=buckets[i-1]`, downwards, and `buckets[0]=0`. -/
def shiftBuckets : (i : Nat) → List Nat → Option (List Nat)
  | 0, buckets => some (buckets.set 0 0)
  | i + 1, buckets => do
      let y ← buckets[i]?
      shiftBuckets i (buckets.set (i + 1) y)

/-- `I[++buckets[old[i]]]=i`. -/
def placeSuffixes : Bytes → (i : Nat) → List Nat → List Int →
    Option (List Nat × List Int)
  | [], _, buckets, I => some (buckets, I)
  | c :: rest, i, buckets, I => do
      let n ← buckets[c.toNat]?
      let I ← store I (n + 1) i
      placeSuffixes rest (i + 1) (buckets.set c.toNat (n + 1)) I

/-- `V[i]=buckets[old[i]]`. -/
def rankSuffixes (buckets : List Nat) :
    Bytes → (i : Nat) → List Nat → Option (List Nat)
  | [], _, V => some V
  | c :: rest, i, V => do
      let n ← buckets[c.toNat]?
      if i < V.length then rankSuffixes buckets rest (i + 1) (V.set i n)
      else none

/-- A bucket with one suffix is sorted. -/
def markSingles (buckets : List Nat) :
    (count i : Nat) → List Int → Option (List Int)
  | 0, _, I => some I
  | count + 1, i, I => do
      let x ← buckets[i]?
      let y ← buckets[i - 1]?
      let I ← storeIf (x = y + 1) I x (-1)
      markSingles buckets count (i + 1) I

/-- The buckets of the first byte. -/
def sortFirst (old : Bytes) (a : Arrays) : Option Arrays := do
  let buckets ← countBytes old (List.replicate 256 0)
  let buckets ← sumBuckets 255 1 buckets
  let buckets ← shiftBuckets 255 buckets
  let (buckets, I) ← placeSuffixes old 0 buckets a.I
  let I ← store I 0 old.length
  let V ← rankSuffixes buckets old 0 a.V
  let V ← if old.length < V.length then some (V.set old.length 0) else none
  let I ← markSingles buckets 255 1 I
  let I ← store I 0 (-1)
  some ⟨I, V⟩

/-- The loop on `i`: runs of sorted suffixes are joined, groups are split.  A
group that ends before it begins would make `len` negative; the run fails. -/
def pass (size h : Nat) : (fuel i len : Nat) → Arrays → Option Arrays
  | 0, _, _, _ => none
  | fuel + 1, i, len, a =>
      if i < size + 1 then do
        let p ← a.I[i]?
        if p < 0 then pass size h fuel (i + p.natAbs) (len + p.natAbs) a
        else
          let I ← storeIf (len ≠ 0) a.I (i - len) (-(len : Int))
          let p ← I[i]?
          let rank ← keyAt a.V 0 p
          if i ≤ rank then
            let len := rank + 1 - i
            let a ← split h (len + 1) i len ⟨I, a.V⟩
            pass size h fuel (i + len) 0 a
          else none
      else do
        let I ← storeIf (len ≠ 0) a.I (i - len) (-(len : Int))
        some ⟨I, a.V⟩

/-- The loop on `h`, until everything is one run. -/
def passes (size : Nat) : (fuel h : Nat) → Arrays → Option Arrays
  | 0, _, _ => none
  | fuel + 1, h, a => do
      let first ← a.I[0]?
      if first = -((size : Int) + 1) then some a
      else
        let a ← pass size h (size + 2) 0 0 a
        passes size fuel (h + h) a

/-- `I[V[i]]=i`. -/
def invert : (count i : Nat) → Arrays → Option (List Int)
  | 0, _, a => some a.I
  | count + 1, i, a => do
      let rank ← a.V[i]?
      let I ← store a.I rank i
      invert count (i + 1) ⟨I, a.V⟩

/-- `qsufsort`: the index it leaves in `I`. -/
def qsufsort (old : Bytes) (a : Arrays) : Option (List Int) := do
  let a ← sortFirst old a
  let a ← passes old.length (old.length + 3) 1 a
  invert (old.length + 1) 0 a

/-- `V` holds the ranks. -/
structure Stores (text : Bytes) (V : List Nat) (rank : Nat → Nat) : Prop where
  length : V.length = text.length + 1
  read : ∀ s ≤ text.length, V[s]? = some (rank s)

section Split

variable {text : Bytes} {V : List Nat} {rank : Nat → Nat} {h l k m : Nat}
  {before after : List Int} {part group : List Nat}

theorem Stores.keyAt (hstores : Stores text V rank) {s : Nat}
    (hs : s + h ≤ text.length) :
    keyAt V h (Int.ofNat s) = some (rank (s + h)) := by
  rw [Bsdiff.keyAt, if_pos (by simp only [Int.ofNat_eq_natCast]; omega)]
  have hnat : (Int.ofNat s + (h : Int)).toNat = s + h := by
    simp only [Int.ofNat_eq_natCast]
    omega
  rw [hnat]
  exact hstores.read _ hs

/-- The key that `keyAt` finds for an entry. -/
def keyOf (rank : Nat → Nat) (h : Nat) (p : Int) : Nat := rank (p.toNat + h)

theorem Stores.keys (hstores : Stores text V rank)
    (hroom : ∀ s ∈ part, s + h ≤ text.length) :
    ∀ p ∈ part.map Int.ofNat, Bsdiff.keyAt V h p = some (keyOf rank h p) := by
  intro p hp
  obtain ⟨s, hs, rfl⟩ := List.mem_map.mp hp
  exact hstores.keyAt (hroom s hs)

theorem Stores.set (hstores : Stores text V rank) {s : Nat}
    (hs : s ≤ text.length) :
    Stores text (V.set s m) (renumber {s} m rank) where
  length := by rw [List.length_set, hstores.length]
  read t ht := by
    have hlength := hstores.length
    rw [List.getElem?_set]
    by_cases hst : s = t
    · subst hst
      rw [if_pos rfl, if_pos (by omega), renumber_of_mem (by simp)]
    · have hfar : t ∉ ({s} : Finset Nat) := by
        rw [Finset.mem_singleton]
        exact fun heq => hst heq.symm
      rw [if_neg hst, hstores.read t ht, renumber_of_not_mem hfar]

theorem renumber_renumber (first second : Finset Nat) (m : Nat)
    (rank : Nat → Nat) :
    renumber second m (renumber first m rank) =
      renumber (first ∪ second) m rank := by
  funext s
  simp only [renumber, Finset.mem_union]
  by_cases h₁ : s ∈ first <;> by_cases h₂ : s ∈ second <;> simp [h₁, h₂]

theorem setRanks_spec (before after : List Int) (part : List Nat)
    (hstores : Stores text V rank) (hk : k = before.length)
    (hpart : ∀ s ∈ part, s ≤ text.length) :
    ∃ V', setRanks (before ++ (part.map Int.ofNat ++ after)) m part.length k V
        = some V' ∧
      Stores text V' (renumber part.toFinset m rank) := by
  induction part generalizing before k V rank with
  | nil =>
      refine ⟨V, rfl, ?_⟩
      have hsame : renumber (List.toFinset ([] : List Nat)) m rank = rank := by
        funext s
        exact renumber_of_not_mem (by simp)
      rwa [hsame]
  | cons s part ih =>
      have hs : s ≤ text.length := hpart s List.mem_cons_self
      have hread : (before ++ ((s :: part).map Int.ofNat ++ after))[k]? =
          some (Int.ofNat s) := read_behind hk
      have hlength := hstores.length
      obtain ⟨V', hrun, hstores'⟩ :=
        ih (before ++ [Int.ofNat s]) (k := k + 1) (hstores.set hs)
          (by rw [List.length_append, hk]; rfl)
          (fun t ht => hpart t (List.mem_cons_of_mem s ht))
      refine ⟨V', ?_, ?_⟩
      · rw [List.length_cons, setRanks, hread]
        simp only [Option.bind_eq_bind, Option.bind_some]
        rw [if_pos ⟨Int.natCast_nonneg s, by simp; omega⟩]
        simpa using hrun
      · rw [renumber_renumber] at hstores'
        have hunion : {s} ∪ part.toFinset = (s :: part).toFinset := by
          rw [List.toFinset_cons]
          rfl
        rwa [hunion] at hstores'

theorem markGroup (before after : List Int) {single : Prop}
    [Decidable single] (hk : k = before.length)
    (hsingle : single ↔ group.length = 1) :
    storeIf single (before ++ (group.map Int.ofNat ++ after)) k (-1) =
      some (before ++ (Splits.groupEntries group ++ after)) := by
  rw [Splits.groupEntries, storeIf]
  by_cases hone : group.length = 1
  · rw [if_pos (hsingle.mpr hone), if_pos hone]
    obtain ⟨s, rfl⟩ := List.length_eq_one_iff.mp hone
    rw [store, if_pos (by simp [hk])]
    simp [hk]
  · rw [if_neg (fun h => hone (hsingle.mp h)), if_neg hone]

theorem cast_parts {front back : List Int}
    (hperm : (front ++ back).Perm (part.map Int.ofNat)) :
    ∃ p₁ p₂ : List Nat, front = p₁.map Int.ofNat ∧ back = p₂.map Int.ofNat ∧
      (p₁ ++ p₂).Perm part := by
  have hcast :
      (front ++ back).map (Int.ofNat ∘ Int.toNat) = front ++ back := by
    conv_rhs => rw [← List.map_id (front ++ back)]
    refine List.map_congr_left fun p hp => ?_
    obtain ⟨s, -, rfl⟩ := List.mem_map.mp (hperm.mem_iff.mp hp)
    rfl
  rw [List.map_append] at hcast
  obtain ⟨hfront, hback⟩ := List.append_inj hcast (by simp)
  refine ⟨front.map Int.toNat, back.map Int.toNat, ?_, ?_, ?_⟩
  · rw [List.map_map, hfront]
  · rw [List.map_map, hback]
  · have hpart := hperm.map Int.toNat
    rwa [List.map_append, List.map_map,
      show Int.toNat ∘ Int.ofNat = id from rfl, List.map_id] at hpart

theorem splitShort_spec (before after : List Int) (part : List Nat)
    {stop fuel : Nat} (hranks : Ranks text h rank)
    (hstores : Stores text V rank) (hk : k = before.length)
    (hstop : stop = k + part.length)
    (hpart : part ≠ [] → Part text h rank l k part)
    (hfuel : part.length < fuel) :
    ∃ V' rank' entries order,
      splitShort h stop fuel k
          ⟨before ++ (part.map Int.ofNat ++ after), V⟩ =
        some ⟨before ++ (entries ++ after), V'⟩ ∧
      Stores text V' rank' ∧
      Splits text h rank k part rank' entries order := by
  induction fuel generalizing k part V rank before with
  | zero => omega
  | succ fuel ih =>
      cases part with
      | nil =>
          refine ⟨V, rank, [], [], ?_, hstores, Splits.empty hranks⟩
          rw [splitShort, if_neg (by rw [hstop, List.length_nil]; omega)]
          rfl
      | cons s part =>
          have hpart := hpart (List.cons_ne_nil s part)
          have hs : keyAt V h (Int.ofNat s) = some (rank (s + h)) :=
            hstores.keyAt (hpart.room s List.mem_cons_self)
          have hcount : stop - k - 1 = (part.map Int.ofNat).length := by
            rw [hstop, List.length_cons, List.length_map]
            omega
          have hread : (before ++ ((s :: part).map Int.ofNat ++ after))[k]? =
              some (Int.ofNat s) := read_behind hk
          obtain ⟨lead, rest, hgather, hcast, hleads⟩ :=
            gatherLeast_spec (keyAt V h) before [Int.ofNat s] []
              (part.map Int.ofNat) after (k := k) (i := 1) (j := 1)
              (x := rank (s + h)) hk rfl rfl hcount
              (hstores.keys fun t ht =>
                hpart.room t (List.mem_cons_of_mem s ht))
              (by simp) (by simp [keyOf]) (by simp)
          rw [List.nil_append, List.singleton_append, ← List.map_cons] at hcast
          obtain ⟨lead, rest, rfl, rfl, hperm⟩ := cast_parts hcast
          have hne : lead ≠ [] := fun h => hleads.nonempty (by rw [h]; rfl)
          have hparts := hpart.of_perm hperm
          have hless : ∀ t ∈ lead, ∀ u ∈ rest, text.drop t < text.drop u :=
            fun t ht u hu => hparts.lt_of_key hranks
              (List.mem_append_left _ ht) (List.mem_append_right _ hu)
              (hleads.less _ (List.mem_map_of_mem ht) _
                (List.mem_map_of_mem hu))
          have hagree : ∀ t ∈ lead, ∀ u ∈ lead, t ≠ u →
              Agree text (h + h) t u :=
            fun t ht u hu htu => hparts.agree_of_key hranks
              (List.mem_append_left _ ht) (List.mem_append_left _ hu) htu
              (hleads.tied _ (List.mem_map_of_mem ht) _
                (List.mem_map_of_mem hu))
          have hlead := hparts.of_front hless
          have hgroup := Splits.renumber hlead hranks hne hagree
          obtain ⟨V₁, hset, hstores₁⟩ := setRanks_spec before
            (rest.map Int.ofNat ++ after) lead (m := k + lead.length - 1)
            hstores hk
            (fun t ht => (hlead.group t ht).1)
          have hlength := hperm.length_eq
          rw [List.length_append, List.length_cons] at hlength
          have hpos := List.length_pos_iff.mpr hne
          rw [List.length_cons] at hstop hfuel
          obtain ⟨V₂, rank₂, entries, order, hrun, hstores₂, hsplits⟩ :=
            ih (before ++ Splits.groupEntries lead) rest
              (k := k + lead.length) hgroup.ranks hstores₁
              (by rw [List.length_append, Splits.groupEntries_length, hk])
              (by omega) (fun hne => hgroup.rest hparts hranks hne) (by omega)
          refine ⟨V₂, rank₂, Splits.groupEntries lead ++ entries,
            lead ++ order, ?_, hstores₂,
            (Splits.append hparts hgroup hsplits).of_perm hperm⟩
          rw [splitShort, if_pos (by omega)]
          simp only [hread, hs, Option.bind_eq_bind, Option.bind_some]
          have hgather' : gatherLeast (keyAt V h) k (stop - k - 1) 1 1
              (rank (s + h))
              (before ++ ((s :: part).map Int.ofNat ++ after)) =
              some (lead.length, before ++ (lead.map Int.ofNat ++
                (rest.map Int.ofNat ++ after))) := by
            simpa using hgather
          simp only [hgather', hset, Option.bind_some]
          rw [markGroup _ _ hk Iff.rfl, Option.bind_some]
          simpa using hrun

theorem cast_three {front middle back : List Int}
    (hperm : (front ++ (middle ++ back)).Perm (part.map Int.ofNat)) :
    ∃ p₁ p₂ p₃ : List Nat, front = p₁.map Int.ofNat ∧
      middle = p₂.map Int.ofNat ∧ back = p₃.map Int.ofNat ∧
      (p₁ ++ (p₂ ++ p₃)).Perm part := by
  obtain ⟨p₁, rest, hfront, hrest, hperm⟩ := cast_parts hperm
  obtain ⟨p₂, p₃, hmiddle, hback, hrest⟩ :=
    cast_parts (List.Perm.of_eq hrest)
  exact ⟨p₁, p₂, p₃, hfront, hmiddle, hback,
    (hrest.append_left p₁).trans hperm⟩

/-- A partition by the ranks `h` behind is one in the order of suffixes. -/
theorem placed_suffixes {start x : Nat} {less equal greater : List Nat}
    (hranks : Ranks text h rank)
    (hpart : SuffixRanks.Part text h rank l start (less ++ (equal ++ greater)))
    (hplaced : Placed (keyOf rank h) x (less.map Int.ofNat)
      (equal.map Int.ofNat) (greater.map Int.ofNat)) :
    (∀ s ∈ less, ∀ t ∈ equal ++ greater, text.drop s < text.drop t) ∧
      (∀ s ∈ equal, ∀ t ∈ greater, text.drop s < text.drop t) ∧
      ∀ s ∈ equal, ∀ t ∈ equal, s ≠ t → Agree text (h + h) s t := by
  have hless : ∀ s ∈ less, rank (s + h) < x :=
    fun s hs => hplaced.less _ (List.mem_map_of_mem hs)
  have hequal : ∀ s ∈ equal, rank (s + h) = x :=
    fun s hs => hplaced.equal _ (List.mem_map_of_mem hs)
  have hgreater : ∀ s ∈ greater, x < rank (s + h) :=
    fun s hs => hplaced.greater _ (List.mem_map_of_mem hs)
  refine ⟨?_, ?_, ?_⟩
  · intro s hs t ht
    refine hpart.lt_of_key hranks (List.mem_append_left _ hs)
      (List.mem_append_right _ ht) ?_
    rcases List.mem_append.mp ht with ht | ht
    · rw [hequal t ht]
      exact hless s hs
    · exact (hless s hs).trans (hgreater t ht)
  · intro s hs t ht
    refine hpart.lt_of_key hranks
      (List.mem_append_right _ (List.mem_append_left _ hs))
      (List.mem_append_right _ (List.mem_append_right _ ht)) ?_
    rw [hequal s hs]
    exact hgreater t ht
  · intro s hs t ht hst
    refine hpart.agree_of_key hranks
      (List.mem_append_right _ (List.mem_append_left _ hs))
      (List.mem_append_right _ (List.mem_append_left _ ht)) hst ?_
    rw [hequal s hs, hequal t ht]

/-- Splitting a part tells its suffixes apart by twice as many bytes. -/
theorem split_spec (before after : List Int) (fuel : Nat) {start : Nat}
    (hranks : Ranks text h rank)
    (hstores : Stores text V rank) (hstart : start = before.length)
    (hne : part ≠ []) (hpart : Part text h rank l start part)
    (hfuel : part.length < fuel) :
    ∃ V' rank' entries order,
      split h fuel start part.length
          ⟨before ++ (part.map Int.ofNat ++ after), V⟩ =
        some ⟨before ++ (entries ++ after), V'⟩ ∧
      Stores text V' rank' ∧
      Splits text h rank start part rank' entries order := by
  induction fuel generalizing start part V rank before after with
  | zero => omega
  | succ fuel ih =>
      rw [split]
      by_cases hshort : part.length < 16
      · rw [if_pos hshort]
        exact splitShort_spec before after part hranks hstores hstart rfl
          (fun _ => hpart) (Nat.lt_succ_self _)
      · rw [if_neg hshort]
        obtain ⟨pivot, hpivot, hread⟩ : ∃ pivot ∈ part,
            (before ++ (part.map Int.ofNat ++ after))[start + part.length / 2]?
              = some (Int.ofNat pivot) := by
          have hlt : part.length / 2 < part.length := by omega
          refine ⟨part[part.length / 2], List.getElem_mem hlt, ?_⟩
          rw [hstart, List.getElem?_append_right (by omega),
            List.getElem?_append_left (by rw [List.length_map]; omega),
            List.getElem?_map, Nat.add_sub_cancel_left,
            List.getElem?_eq_getElem hlt]
          rfl
        obtain ⟨less, equal, greater, j, k, array, hcount, hlow, hmiddle,
          hcast, hplaced⟩ := partition_spec (keyAt V h) (rank (pivot + h))
            before (part.map Int.ofNat) after hstart (hstores.keys hpart.room)
        obtain ⟨less, equal, greater, rfl, rfl, rfl, hperm⟩ := cast_three hcast
        have hparts := hpart.of_perm hperm
        obtain ⟨hless, hgreater, hagree⟩ :=
          placed_suffixes hranks hparts hplaced
        have hequal_ne : equal ≠ [] := by
          rintro rfl
          have hmem := hperm.mem_iff.mpr hpivot
          simp only [List.nil_append, List.mem_append] at hmem
          rcases hmem with hmem | hmem
          · exact lt_irrefl _ (hplaced.less _ (List.mem_map_of_mem hmem))
          · exact lt_irrefl _ (hplaced.greater _ (List.mem_map_of_mem hmem))
        have hpos := List.length_pos_iff.mpr hequal_ne
        have hlength := hperm.length_eq
        simp only [List.length_append] at hlength
        simp only [List.length_map] at hcount hlow hmiddle
        -- the part with lesser keys
        obtain ⟨V₁, rank₁, entries₁, order₁, hrun₁, hstores₁, hsplits₁⟩ :
            ∃ V' rank' entries order,
              (if start + less.length > start then
                  split h fuel start (start + less.length - start)
                    ⟨before ++ (less.map Int.ofNat ++ (equal.map Int.ofNat ++
                      (greater.map Int.ofNat ++ after))), V⟩
                else some ⟨before ++ (less.map Int.ofNat ++
                  (equal.map Int.ofNat ++ (greater.map Int.ofNat ++ after))),
                  V⟩) =
                some ⟨before ++ (entries ++ (equal.map Int.ofNat ++
                  (greater.map Int.ofNat ++ after))), V'⟩ ∧
              Stores text V' rank' ∧
              Splits text h rank start less rank' entries order := by
          by_cases hlt : start + less.length > start
          · rw [if_pos hlt, Nat.add_sub_cancel_left]
            exact ih _ _ hranks hstores hstart
              (List.length_pos_iff.mp (by omega)) (hparts.of_front hless)
              (by omega)
          · have hnil : less = [] := List.length_eq_zero_iff.mp (by omega)
            subst hnil
            rw [if_neg hlt]
            exact ⟨V, rank, [], [], rfl, hstores, Splits.empty hranks⟩
        -- the group that is equal to the pivot
        have hrest₁ := hsplits₁.rest hparts hranks (by simp [hequal_ne])
        have hgroup := Splits.renumber (hrest₁.of_front hgreater)
          hsplits₁.ranks
          hequal_ne hagree
        obtain ⟨V₂, hset, hstores₂⟩ := setRanks_spec
          (before ++ entries₁) (greater.map Int.ofNat ++ after) equal
          (k := start + less.length)
          (m := start + less.length + equal.length - 1) hstores₁
          (by rw [List.length_append, hsplits₁.entries_length, hstart])
          (fun t ht => (hrest₁.group t (List.mem_append_left _ ht)).1)
        -- the part with greater keys
        obtain ⟨V₃, rank₃, entries₃, order₃, hrun₃, hstores₃, hsplits₃⟩ :
            ∃ V' rank' entries order,
              (if start + part.length > start + less.length + equal.length then
                  split h fuel (start + less.length + equal.length)
                    (start + part.length -
                      (start + less.length + equal.length))
                    ⟨(before ++ entries₁ ++ Splits.groupEntries equal) ++
                      (greater.map Int.ofNat ++ after), V₂⟩
                else some ⟨(before ++ entries₁ ++ Splits.groupEntries equal) ++
                  (greater.map Int.ofNat ++ after), V₂⟩) =
                some ⟨(before ++ entries₁ ++ Splits.groupEntries equal) ++
                  (entries ++ after), V'⟩ ∧
              Stores text V' rank' ∧
              Splits text h _ (start + less.length + equal.length) greater
                rank' entries order := by
          by_cases hlt :
              start + part.length > start + less.length + equal.length
          · have hgreater_ne : greater ≠ [] :=
              List.length_pos_iff.mp (by omega)
            rw [if_pos hlt, show start + part.length -
              (start + less.length + equal.length) = greater.length by omega]
            exact ih _ _ hgroup.ranks hstores₂
              (by simp only [List.length_append, hsplits₁.entries_length,
                Splits.groupEntries_length]; omega)
              hgreater_ne (hgroup.rest hrest₁ hsplits₁.ranks hgreater_ne)
              (by omega)
          · have hnil : greater = [] := List.length_eq_zero_iff.mp (by omega)
            subst hnil
            rw [if_neg hlt]
            exact ⟨V₂, _, [], [], rfl, hstores₂, Splits.empty hgroup.ranks⟩
        refine ⟨V₃, rank₃, entries₁ ++ (Splits.groupEntries equal ++ entries₃),
          order₁ ++ (equal ++ order₃), ?_, hstores₃,
          (Splits.append hparts hsplits₁
            (Splits.append hrest₁ hgroup hsplits₃)).of_perm hperm⟩
        have hone : start + less.length =
            start + less.length + equal.length - 1 ↔ equal.length = 1 := by
          omega
        have hmark := markGroup (before ++ entries₁)
          (greater.map Int.ofNat ++ after) (k := start + less.length)
          (by rw [List.length_append, hsplits₁.entries_length, hstart]) hone
        simp only [List.append_assoc] at hset hmark hrun₃ ⊢
        rw [Nat.add_sub_cancel_left] at hrun₁
        have hkey : keyAt V h (Int.ofNat pivot) = some (rank (pivot + h)) :=
          hstores.keyAt (hpart.room pivot hpivot)
        simp only [hread, hkey, hcount, hlow, hmiddle, hrun₁,
          Nat.add_sub_cancel_left, hset, hmark, Option.bind_eq_bind,
          Option.bind_some]
        exact hrun₃

end Split

end Bsdiff

end MetaOS
