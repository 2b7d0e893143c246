/-
The first step of `qsufsort`: the suffixes are put in buckets by their first
byte, and a bucket of one suffix is sorted.  The suffix of no bytes comes
first.
-/
import MetaOS.SuffixSort

namespace MetaOS

namespace Bsdiff

open ThreeWay SuffixRanks

/-- The byte at which a suffix begins. -/
def byteAt (old : Bytes) (s : Nat) : Nat := (old.getD s 0).toNat

/-- The suffixes before `i` that begin with the byte `c`. -/
def bucket (old : Bytes) (i c : Nat) : List Nat :=
  (List.range i).filter (byteAt old · = c)

/-- How many suffixes before `i` begin with a byte less than `c`. -/
def below (old : Bytes) (i c : Nat) : Nat :=
  ((List.range i).filter (byteAt old · < c)).length

section Buckets

variable {old : Bytes} {i c : Nat}

theorem byteAt_lt (old : Bytes) (s : Nat) : byteAt old s < 256 :=
  UInt8.toNat_lt _

theorem mem_bucket {s : Nat} :
    s ∈ bucket old i c ↔ s < i ∧ byteAt old s = c := by
  simp [bucket]

theorem bucket_nodup (old : Bytes) (i c : Nat) : (bucket old i c).Nodup :=
  List.nodup_range.filter _

theorem bucket_succ (old : Bytes) (i c : Nat) :
    bucket old (i + 1) c =
      bucket old i c ++ (if byteAt old i = c then [i] else []) := by
  rw [bucket, List.range_succ, List.filter_append, ← bucket]
  congr 1
  by_cases h : byteAt old i = c <;> simp [h]

theorem below_zero (old : Bytes) (i : Nat) : below old i 0 = 0 := by
  simp [below]

theorem below_all (old : Bytes) (i : Nat) : below old i 256 = i := by
  rw [below, List.filter_eq_self.mpr, List.length_range]
  intro s _
  simpa using byteAt_lt old s

theorem below_succ (old : Bytes) (i c : Nat) :
    below old i (c + 1) = below old i c + (bucket old i c).length := by
  rw [below, below, bucket]
  generalize List.range i = part
  induction part with
  | nil => rfl
  | cons s part ih =>
      simp only [List.filter_cons, decide_eq_true_eq]
      rcases lt_trichotomy (byteAt old s) c with h | h | h
      · rw [if_pos (by omega), if_pos h, if_neg h.ne, List.length_cons,
          List.length_cons]
        omega
      · rw [if_pos (by omega), if_neg (by omega), if_pos h, List.length_cons,
          List.length_cons]
        omega
      · rw [if_neg (by omega), if_neg (by omega), if_neg h.ne']
        exact ih

theorem below_mono (old : Bytes) (i : Nat) {c d : Nat} (hcd : c ≤ d) :
    below old i c ≤ below old i d := by
  induction hcd with
  | refl => exact le_rfl
  | step _ ih =>
      rw [Nat.succ_eq_add_one, below_succ]
      omega

theorem below_le (old : Bytes) (i : Nat) {c : Nat} (hc : c ≤ 256) :
    below old i c ≤ i := by
  conv_rhs => rw [← below_all old i]
  exact below_mono old i hc

/-- A bucket that has a suffix makes a difference. -/
theorem below_lt (old : Bytes) {i s : Nat} (hs : s < i) :
    below old i (byteAt old s) < below old i (byteAt old s + 1) := by
  have hmem : s ∈ bucket old i (byteAt old s) := mem_bucket.mpr ⟨hs, rfl⟩
  have hpos := List.length_pos_of_mem hmem
  rw [below_succ]
  omega

theorem drop_cons {rest : Bytes} {b : UInt8} (hdrop : old.drop i = b :: rest) :
    i < old.length ∧ byteAt old i = b.toNat ∧ old.drop (i + 1) = rest := by
  have hlt : i < old.length := by
    by_contra hge
    rw [List.drop_eq_nil_of_le (by omega)] at hdrop
    cases hdrop
  rw [List.drop_eq_getElem_cons hlt] at hdrop
  injection hdrop with hhead htail
  refine ⟨hlt, ?_, htail⟩
  rw [byteAt, List.getD_eq_getElem?_getD, List.getElem?_eq_getElem hlt, hhead]
  rfl

/-- The buckets hold a number for each byte. -/
structure Holds (buckets : List Nat) (f : Nat → Nat) : Prop where
  length : buckets.length = 256
  read : ∀ c < 256, buckets[c]? = some (f c)

theorem Holds.set {buckets : List Nat} {f g : Nat → Nat}
    (hholds : Holds buckets f) {x : Nat} (hc : c < 256) (hx : g c = x)
    (hother : ∀ d < 256, d ≠ c → g d = f d) : Holds (buckets.set c x) g where
  length := by rw [List.length_set, hholds.length]
  read d hd := by
    have hlength := hholds.length
    by_cases hdc : d = c
    · subst hdc
      rw [List.getElem?_set_self (by omega), hx]
    · rw [List.getElem?_set_ne (Ne.symm hdc), hholds.read d hd,
        hother d hd hdc]

theorem countBytes_spec (rest : Bytes) {buckets : List Nat}
    (hdrop : old.drop i = rest)
    (hholds : Holds buckets fun c => (bucket old i c).length) :
    ∃ buckets', countBytes rest buckets = some buckets' ∧
      Holds buckets' fun c => (bucket old (i + rest.length) c).length := by
  induction rest generalizing i buckets with
  | nil => exact ⟨buckets, rfl, hholds⟩
  | cons b rest ih =>
      obtain ⟨-, hbyte, hnext⟩ := drop_cons hdrop
      have hb : b.toNat < 256 := UInt8.toNat_lt b
      obtain ⟨buckets', hrun, hholds'⟩ := ih hnext
        (hholds.set (g := fun c => (bucket old (i + 1) c).length) hb
          (x := (bucket old i b.toNat).length + 1)
          (by simp [bucket_succ, hbyte])
          (by
            intro d _ hd
            simp [bucket_succ, hbyte, Ne.symm hd]))
      refine ⟨buckets', ?_, ?_⟩
      · rw [countBytes, hholds.read _ hb]
        exact hrun
      · rw [List.length_cons, show i + (rest.length + 1) =
          i + 1 + rest.length by omega]
        exact hholds'

theorem sumBuckets_spec (old : Bytes) {count : Nat} {buckets : List Nat}
    {i n : Nat}
    (hi : 0 < i) (hcount : i + count = 256)
    (hholds : Holds buckets fun c =>
      if c < i then below old n (c + 1) else (bucket old n c).length) :
    ∃ buckets', sumBuckets count i buckets = some buckets' ∧
      Holds buckets' fun c => below old n (c + 1) := by
  induction count generalizing i buckets with
  | zero =>
      refine ⟨buckets, rfl, hholds.length, fun c hc => ?_⟩
      rw [hholds.read c hc, if_pos (by omega)]
  | succ count ih =>
      obtain ⟨buckets', hrun, hholds'⟩ := ih (Nat.succ_pos i) (by omega)
        (hholds.set (c := i) (g := fun c => if c < i + 1 then
            below old n (c + 1) else (bucket old n c).length)
          (x := (bucket old n i).length + below old n i) (by omega)
          (by
            rw [if_pos (Nat.lt_succ_self i), below_succ]
            omega)
          (by
            intro d _ hd
            by_cases hlt : d < i
            · rw [if_pos (by omega), if_pos hlt]
            · rw [if_neg (by omega), if_neg hlt]))
      refine ⟨buckets', ?_, hholds'⟩
      rw [sumBuckets, hholds.read i (by omega),
        hholds.read (i - 1) (by omega), if_neg (lt_irrefl i),
        if_pos (by omega), Nat.sub_add_cancel hi]
      exact hrun

theorem shiftBuckets_spec (old : Bytes) {buckets : List Nat} {i n : Nat}
    (hi : i < 256)
    (hholds : Holds buckets fun c =>
      if c ≤ i then below old n (c + 1) else below old n c) :
    ∃ buckets', shiftBuckets i buckets = some buckets' ∧
      Holds buckets' (below old n) := by
  induction i generalizing buckets with
  | zero =>
      refine ⟨_, rfl, hholds.set (by omega) (below_zero old n) ?_⟩
      intro d _ hd
      rw [if_neg (by omega)]
  | succ i ih =>
      obtain ⟨buckets', hrun, hholds'⟩ := ih (by omega)
        (hholds.set (c := i + 1) (g := fun c => if c ≤ i then
            below old n (c + 1) else below old n c)
          (x := below old n (i + 1)) hi
          (by rw [if_neg (by omega)])
          (by
            intro d _ hd
            by_cases hle : d ≤ i
            · rw [if_pos hle, if_pos (by omega)]
            · rw [if_neg hle, if_neg (by omega)]))
      refine ⟨buckets', ?_, hholds'⟩
      rw [shiftBuckets, hholds.read i (by omega), if_pos (Nat.le_succ i)]
      exact hrun

/-- The entries hold, for each byte, a list of suffixes from the place
`below c + 1` on. -/
def Filled (old : Bytes) (I : List Int) (part : Nat → List Int) : Prop :=
  ∀ c < 256, ∀ m < (part c).length,
    I[below old old.length c + 1 + m]? = (part c)[m]?

/-- The places of two buckets are different. -/
theorem place_ne (old : Bytes) {i c d m k : Nat} (hcd : c ≠ d)
    (hm : m < (bucket old i c).length) (hk : k < (bucket old i d).length) :
    below old i c + 1 + m ≠ below old i d + 1 + k := by
  have hc := below_succ old i c
  have hd := below_succ old i d
  rcases Nat.lt_or_gt_of_ne hcd with hlt | hlt
  · have hmono := below_mono old i (Nat.succ_le_of_lt hlt)
    rw [Nat.succ_eq_add_one] at hmono
    omega
  · have hmono := below_mono old i (Nat.succ_le_of_lt hlt)
    rw [Nat.succ_eq_add_one] at hmono
    omega

theorem bucket_prefix (old : Bytes) {i n : Nat} (hin : i ≤ n) (c : Nat) :
    (bucket old i c).length ≤ (bucket old n c).length :=
  ((List.range_sublist.mpr hin).filter _).length_le

theorem placeSuffixes_spec (rest : Bytes) {buckets : List Nat} {I : List Int}
    (hdrop : old.drop i = rest) (hlength : I.length = old.length + 1)
    (hholds : Holds buckets fun c =>
      below old old.length c + (bucket old i c).length)
    (hfilled : Filled old I fun c => (bucket old i c).map Int.ofNat) :
    ∃ buckets' I', placeSuffixes rest i buckets I = some (buckets', I') ∧
      Holds buckets' (fun c => below old old.length c +
        (bucket old (i + rest.length) c).length) ∧
      I'.length = old.length + 1 ∧
      Filled old I' fun c =>
        (bucket old (i + rest.length) c).map Int.ofNat := by
  induction rest generalizing i buckets I with
  | nil => exact ⟨buckets, I, rfl, hholds, hlength, hfilled⟩
  | cons b rest ih =>
      obtain ⟨hlt, hbyte, hnext⟩ := drop_cons hdrop
      have hb : b.toNat < 256 := UInt8.toNat_lt b
      have hadded : bucket old (i + 1) b.toNat =
          bucket old i b.toNat ++ [i] := by
        rw [bucket_succ, if_pos hbyte]
      have hsame : ∀ d, d ≠ b.toNat →
          bucket old (i + 1) d = bucket old i d := by
        intro d hd
        rw [bucket_succ, hbyte, if_neg (Ne.symm hd), List.append_nil]
      have hroom : (bucket old i b.toNat).length + 1 ≤
          (bucket old old.length b.toNat).length := by
        have hgrown := bucket_prefix old (Nat.succ_le_of_lt hlt) b.toNat
        rw [Nat.succ_eq_add_one, hadded, List.length_append] at hgrown
        exact hgrown
      have hplace : below old old.length b.toNat +
          (bucket old i b.toNat).length + 1 ≤ old.length := by
        have hsucc := below_succ old old.length b.toNat
        have hle := below_le old old.length (Nat.succ_le_of_lt hb)
        rw [Nat.succ_eq_add_one] at hle
        omega
      obtain ⟨buckets', I', hrun, hends⟩ := ih hnext
        (I := I.set (below old old.length b.toNat +
          (bucket old i b.toNat).length + 1) i)
        (by rw [List.length_set, hlength])
        (hholds.set (g := fun c =>
            below old old.length c + (bucket old (i + 1) c).length) hb
          (x := below old old.length b.toNat +
            (bucket old i b.toNat).length + 1)
          (by simp only [hadded, List.length_append, List.length_singleton]
              omega)
          (fun d _ hd => by simp only [hsame d hd]))
        (by
          intro c hc m hm
          rw [List.length_map] at hm
          by_cases hcb : c = b.toNat
          · subst hcb
            rw [hadded, List.length_append, List.length_singleton] at hm
            simp only [hadded, List.map_append]
            by_cases hlast : m < (bucket old i b.toNat).length
            · rw [List.getElem?_append_left (by rw [List.length_map]; omega),
                List.getElem?_set_ne (by omega)]
              exact hfilled _ hb m (by rw [List.length_map]; omega)
            · have hm : m = (bucket old i b.toNat).length := by omega
              rw [show below old old.length b.toNat + 1 + m =
                below old old.length b.toNat +
                  (bucket old i b.toNat).length + 1 by omega,
                List.getElem?_set_self (by omega), hm]
              simp
          · have hne := place_ne old (i := old.length) (m := m)
              (k := (bucket old i b.toNat).length) hcb
              (by
                have hgrown := bucket_prefix old (Nat.succ_le_of_lt hlt) c
                rw [Nat.succ_eq_add_one] at hgrown
                omega) (by omega)
            rw [hsame c hcb] at hm
            simp only [hsame c hcb]
            rw [List.getElem?_set_ne (by omega)]
            exact hfilled c hc m (by rw [List.length_map]; omega))
      refine ⟨buckets', I', ?_, ?_⟩
      · rw [placeSuffixes, hholds.read _ hb]
        simp only [Option.bind_eq_bind, Option.bind_some]
        rw [store, if_pos (by omega), Option.bind_some]
        exact hrun
      · rw [List.length_cons, show i + (rest.length + 1) =
          i + 1 + rest.length by omega]
        exact hends

theorem rankSuffixes_spec (rest : Bytes) {buckets V : List Nat}
    {f : Nat → Nat} (hdrop : old.drop i = rest)
    (hlength : V.length = old.length + 1) (hholds : Holds buckets f)
    (hdone : ∀ s < i, V[s]? = some (f (byteAt old s))) :
    ∃ V', rankSuffixes buckets rest i V = some V' ∧
      V'.length = old.length + 1 ∧
      ∀ s < i + rest.length, V'[s]? = some (f (byteAt old s)) := by
  induction rest generalizing i V with
  | nil => exact ⟨V, rfl, hlength, hdone⟩
  | cons b rest ih =>
      obtain ⟨hlt, hbyte, hnext⟩ := drop_cons hdrop
      obtain ⟨V', hrun, hlength', hdone'⟩ := ih hnext
        (V := V.set i (f b.toNat)) (by rw [List.length_set, hlength])
        (by
          intro s hs
          by_cases hsi : s = i
          · subst hsi
            rw [List.getElem?_set_self (by omega), hbyte]
          · rw [List.getElem?_set_ne (Ne.symm hsi)]
            exact hdone s (by omega))
      refine ⟨V', ?_, hlength', ?_⟩
      · rw [rankSuffixes, hholds.read _ (UInt8.toNat_lt b)]
        simp only [Option.bind_eq_bind, Option.bind_some]
        rw [if_pos (by omega), hrun]
      · rw [List.length_cons, show i + (rest.length + 1) =
          i + 1 + rest.length by omega]
        exact hdone'

/-- What a bucket looks like in the array: only the bucket of the byte 0
keeps a suffix that is alone. -/
def bucketEntries (old : Bytes) (c : Nat) : List Int :=
  if c = 0 then (bucket old old.length c).map Int.ofNat
  else Splits.groupEntries (bucket old old.length c)

theorem bucketEntries_length (old : Bytes) (c : Nat) :
    (bucketEntries old c).length = (bucket old old.length c).length := by
  rw [bucketEntries]
  split
  · exact List.length_map _
  · exact Splits.groupEntries_length _

theorem marked_length (old : Bytes) (i c : Nat) :
    (if c < i then bucketEntries old c
      else (bucket old old.length c).map Int.ofNat).length =
      (bucket old old.length c).length := by
  split
  · exact bucketEntries_length old c
  · exact List.length_map _

theorem markBucket {I : List Int} (hi : 0 < i) (hlt : i < 256)
    (hlength : I.length = old.length + 1)
    (hfilled : Filled old I fun c => if c < i then bucketEntries old c
      else (bucket old old.length c).map Int.ofNat) :
    ∃ I', storeIf (below old old.length (i + 1) = below old old.length i + 1) I
          (below old old.length (i + 1)) (-1) = some I' ∧
      I'.length = old.length + 1 ∧
      Filled old I' fun c => if c < i + 1 then bucketEntries old c
        else (bucket old old.length c).map Int.ofNat := by
  have hsucc := below_succ old old.length i
  have hle := below_le old old.length (Nat.succ_le_of_lt hlt)
  rw [Nat.succ_eq_add_one] at hle
  have hother : ∀ c, c ≠ i → (if c < i + 1 then bucketEntries old c
        else (bucket old old.length c).map Int.ofNat) =
      if c < i then bucketEntries old c
        else (bucket old old.length c).map Int.ofNat := by
    intro c hci
    by_cases hlt : c < i
    · rw [if_pos (by omega), if_pos hlt]
    · rw [if_neg (by omega), if_neg hlt]
  rw [storeIf]
  by_cases hone : (bucket old old.length i).length = 1
  · refine ⟨I.set (below old old.length (i + 1)) (-1), ?_,
      by rw [List.length_set, hlength], ?_⟩
    · rw [if_pos (by omega), store, if_pos (by omega)]
    · intro c hc m hm
      rw [marked_length] at hm
      by_cases hci : c = i
      · subst hci
        simp only [if_pos (Nat.lt_succ_self c)]
        rw [show below old old.length c + 1 + m =
          below old old.length (c + 1) by omega,
          List.getElem?_set_self (by omega), bucketEntries,
          if_neg (by omega), Splits.groupEntries, if_pos hone,
          show m = 0 by omega]
        rfl
      · have hne := place_ne old (i := old.length) (k := 0) hci hm (by omega)
        simp only [hother c hci]
        rw [List.getElem?_set_ne (by omega)]
        exact hfilled c hc m (by rw [marked_length]; exact hm)
  · refine ⟨I, by rw [if_neg (by omega)], hlength, ?_⟩
    intro c hc m hm
    rw [marked_length] at hm
    have hentry := hfilled c hc m (by rw [marked_length]; exact hm)
    rw [hentry]
    by_cases hci : c = i
    · subst hci
      simp only [lt_irrefl, if_false, if_pos (Nat.lt_succ_self c)]
      rw [bucketEntries, if_neg (by omega), Splits.groupEntries, if_neg hone]
    · simp only [hother c hci]

theorem markSingles_spec (old : Bytes) {count : Nat} {buckets : List Nat}
    {I : List Int} {i : Nat}
    (hi : 0 < i) (hcount : i + count = 256)
    (hlength : I.length = old.length + 1)
    (hholds : Holds buckets fun c => below old old.length (c + 1))
    (hfilled : Filled old I fun c => if c < i then bucketEntries old c
      else (bucket old old.length c).map Int.ofNat) :
    ∃ I', markSingles buckets count i I = some I' ∧
      I'.length = old.length + 1 ∧ Filled old I' (bucketEntries old) := by
  induction count generalizing i I with
  | zero =>
      refine ⟨I, rfl, hlength, fun c hc m hm => ?_⟩
      have hentry := hfilled c hc m
      simp only [if_pos (by omega : c < i)] at hentry
      exact hentry hm
  | succ count ih =>
      have hsucc := below_succ old old.length i
      have hle := below_le old old.length (by omega : i + 1 ≤ 256)
      obtain ⟨I₁, hmark, hlength₁, hfilled₁⟩ : ∃ I₁,
          storeIf (below old old.length (i + 1) =
            below old old.length i + 1) I (below old old.length (i + 1)) (-1) =
              some I₁ ∧ I₁.length = old.length + 1 ∧
          Filled old I₁ fun c => if c < i + 1 then bucketEntries old c
            else (bucket old old.length c).map Int.ofNat :=
        markBucket hi (by omega) hlength hfilled
      obtain ⟨I', hrun, hends⟩ :=
        ih (Nat.succ_pos i) (by omega) hlength₁ hfilled₁
      refine ⟨I', ?_, hends⟩
      rw [markSingles, hholds.read i (by omega),
        hholds.read (i - 1) (by omega),
        Nat.sub_add_cancel hi]
      simp only [Option.bind_eq_bind, Option.bind_some]
      rw [hmark, Option.bind_some, hrun]

/-- The rank of a suffix is the last place of its bucket. -/
def firstRank (old : Bytes) (s : Nat) : Nat :=
  if s < old.length then below old old.length (byteAt old s + 1) else 0

theorem firstRank_of_lt {s : Nat} (hs : s < old.length) :
    firstRank old s = below old old.length (byteAt old s + 1) :=
  if_pos hs

theorem firstRank_end (old : Bytes) : firstRank old old.length = 0 :=
  if_neg (lt_irrefl _)

theorem firstRank_pos {s : Nat} (hs : s < old.length) :
    0 < firstRank old s := by
  rw [firstRank_of_lt hs]
  exact Nat.zero_lt_of_lt (below_lt old hs)

theorem firstRank_lt_iff {s t : Nat} (hs : s < old.length)
    (ht : t < old.length) :
    firstRank old s < firstRank old t ↔ byteAt old s < byteAt old t := by
  rw [firstRank_of_lt hs, firstRank_of_lt ht]
  constructor
  · intro hlt
    by_contra hge
    have hmono := below_mono old old.length
      (by omega : byteAt old t + 1 ≤ byteAt old s + 1)
    omega
  · intro hlt
    have hmono := below_mono old old.length
      (by omega : byteAt old s + 1 ≤ byteAt old t)
    have hstep := below_lt old ht
    omega

theorem drop_eq_cons {s : Nat} (hs : s < old.length) :
    ∃ b : UInt8, b.toNat = byteAt old s ∧
      old.drop s = b :: old.drop (s + 1) := by
  refine ⟨old[s], ?_, List.drop_eq_getElem_cons hs⟩
  rw [byteAt, List.getD_eq_getElem?_getD, List.getElem?_eq_getElem hs]
  rfl

theorem firstRank_places {s : Nat} (hs : s ≤ old.length) :
    placesBelow old (firstRank old) (firstRank old s + 1) =
      firstRank old s + 1 := by
  rw [placesBelow]
  by_cases hlt : s < old.length
  · have hset : (Finset.range (old.length + 1)).filter
          (firstRank old · < firstRank old s + 1) =
        insert old.length ((List.range old.length).filter
          (byteAt old · < byteAt old s + 1)).toFinset := by
      ext t
      rw [Finset.mem_filter, Finset.mem_range, Finset.mem_insert,
        List.mem_toFinset, List.mem_filter, List.mem_range,
        decide_eq_true_eq, Nat.lt_succ_iff]
      by_cases ht : t < old.length
      · have hiff := firstRank_lt_iff hlt ht
        omega
      · constructor
        · rintro ⟨hle, -⟩
          exact Or.inl (by omega)
        · rintro (rfl | ⟨hbad, -⟩)
          · rw [firstRank_end]
            omega
          · exact absurd hbad ht
    rw [hset, Finset.card_insert_of_notMem (by simp),
      List.toFinset_card_of_nodup (List.nodup_range.filter _),
      firstRank_of_lt hlt, below]
  · have heq : s = old.length := by omega
    subst heq
    have hset : (Finset.range (old.length + 1)).filter
        (firstRank old · < firstRank old old.length + 1) = {old.length} := by
      ext t
      rw [Finset.mem_filter, Finset.mem_range, Finset.mem_singleton,
        firstRank_end]
      constructor
      · rintro ⟨hle, hzero⟩
        by_contra hne
        have hpos := firstRank_pos (by omega : t < old.length)
        omega
      · rintro rfl
        rw [firstRank_end]
        omega
    rw [hset, Finset.card_singleton, firstRank_end]

/-- The buckets order the suffixes by their first byte. -/
theorem firstRank_ranks (old : Bytes) : Ranks old 1 (firstRank old) where
  below := by
    intro s hs t ht hlt
    rcases Nat.lt_or_eq_of_le ht with ht | rfl
    · obtain ⟨b, hb, hdrop⟩ := drop_eq_cons ht
      rcases Nat.lt_or_eq_of_le hs with hs | rfl
      · obtain ⟨a, ha, hdrop'⟩ := drop_eq_cons hs
        have hbyte := (firstRank_lt_iff hs ht).mp hlt
        rw [hdrop, hdrop', List.cons_lt_cons_iff]
        left
        rw [UInt8.lt_iff_toNat_lt]
        omega
      · rw [List.drop_length, hdrop]
        exact List.nil_lt_cons _ _
    · rw [firstRank_end] at hlt
      omega
  tied := by
    intro s hs t ht hst heq
    rcases Nat.lt_or_eq_of_le hs with hs | rfl
    · rcases Nat.lt_or_eq_of_le ht with ht | rfl
      · have hst := firstRank_lt_iff hs ht
        have hts := firstRank_lt_iff ht hs
        obtain ⟨a, ha, hdrop⟩ := drop_eq_cons hs
        obtain ⟨b, hb, hdrop'⟩ := drop_eq_cons ht
        have hab : a = b := UInt8.toNat_inj.mp (by omega)
        refine ⟨hs, ht, ?_⟩
        rw [hdrop, hdrop', hab]
        rfl
      · have hpos := firstRank_pos hs
        rw [heq, firstRank_end] at hpos
        omega
    · rcases Nat.lt_or_eq_of_le ht with ht | rfl
      · have hpos := firstRank_pos ht
        rw [← heq, firstRank_end] at hpos
        omega
      · exact absurd rfl hst
  last := fun _ hs => firstRank_places hs

/-- One bucket makes one block. -/
theorem bucket_block (old : Bytes) (c : Nat) :
    Blocks old.length 1 (firstRank old) (below old old.length c + 1)
      (bucketEntries old c) (bucket old old.length c) := by
  have hsucc := below_succ old old.length c
  have hrank : ∀ s ∈ bucket old old.length c,
      firstRank old s + 1 = below old old.length c + 1 +
        (bucket old old.length c).length := by
    intro s hs
    obtain ⟨hlt, hbyte⟩ := mem_bucket.mp hs
    rw [firstRank_of_lt hlt, hbyte]
    omega
  have hroom : ∀ s ∈ bucket old old.length c, s + 1 ≤ old.length :=
    fun s hs => (mem_bucket.mp hs).1
  by_cases hne : bucket old old.length c = []
  · rw [bucketEntries, hne, Splits.groupEntries]
    simpa using Blocks.nil (below old old.length c + 1)
  · have hgroup : Blocks old.length 1 (firstRank old)
        (below old old.length c + 1)
        ((bucket old old.length c).map Int.ofNat ++ [])
        (bucket old old.length c ++ []) :=
      Blocks.group hne hrank hroom (Blocks.nil _)
    rw [List.append_nil, List.append_nil] at hgroup
    rw [bucketEntries]
    split
    · exact hgroup
    · rw [Splits.groupEntries]
      split
      · rename_i hone
        obtain ⟨s, hs⟩ := List.length_eq_one_iff.mp hone
        have hlast := hrank s (by rw [hs]; exact List.mem_singleton_self s)
        rw [hs]
        exact Blocks.single (by omega)
      · exact hgroup

/-- The suffixes that begin with a byte from `c` on, in order. -/
def bucketsFrom (old : Bytes) : (count c : Nat) → List Nat
  | 0, _ => []
  | count + 1, c => bucket old old.length c ++ bucketsFrom old count (c + 1)

theorem mem_bucketsFrom {count c s : Nat} (hcount : c + count = 256) :
    s ∈ bucketsFrom old count c ↔ s < old.length ∧ c ≤ byteAt old s := by
  induction count generalizing c with
  | zero =>
      have hlt := byteAt_lt old s
      simp only [bucketsFrom, List.not_mem_nil, false_iff]
      omega
  | succ count ih =>
      rw [bucketsFrom, List.mem_append, mem_bucket, ih (by omega)]
      omega

theorem bucketsFrom_nodup {count c : Nat} (hcount : c + count = 256) :
    (bucketsFrom old count c).Nodup := by
  induction count generalizing c with
  | zero => exact List.nodup_nil
  | succ count ih =>
      rw [bucketsFrom, List.nodup_append]
      refine ⟨bucket_nodup _ _ _, ih (by omega), ?_⟩
      rintro s hs t ht rfl
      rw [mem_bucket] at hs
      rw [mem_bucketsFrom (by omega)] at ht
      omega

theorem bucketsFrom_perm (old : Bytes) :
    (old.length :: bucketsFrom old 256 0).Perm
      (List.range (old.length + 1)) := by
  have hnodup : (old.length :: bucketsFrom old 256 0).Nodup := by
    rw [List.nodup_cons, mem_bucketsFrom rfl]
    exact ⟨by omega, bucketsFrom_nodup rfl⟩
  rw [List.perm_ext_iff_of_nodup hnodup List.nodup_range]
  intro s
  rw [List.mem_cons, mem_bucketsFrom rfl, List.mem_range]
  omega

/-- The entries from a bucket on make up blocks. -/
theorem buckets_blocks {I : List Int} {count c : Nat}
    (hlength : I.length = old.length + 1) (hcount : c + count = 256)
    (hfilled : Filled old I (bucketEntries old)) :
    Blocks old.length 1 (firstRank old) (below old old.length c + 1)
      (I.drop (below old old.length c + 1)) (bucketsFrom old count c) := by
  induction count generalizing c with
  | zero =>
      rw [show c = 256 by omega, below_all, List.drop_eq_nil_of_le (by omega)]
      exact Blocks.nil _
  | succ count ih =>
      have hsucc := below_succ old old.length c
      have hle := below_le old old.length (by omega : c + 1 ≤ 256)
      have hentries := bucketEntries_length old c
      have hcut : I.drop (below old old.length c + 1) =
          bucketEntries old c ++
            I.drop (below old old.length (c + 1) + 1) := by
        refine List.ext_getElem? fun m => ?_
        rw [List.getElem?_drop]
        by_cases hm : m < (bucketEntries old c).length
        · rw [List.getElem?_append_left hm]
          exact hfilled c (by omega) m hm
        · rw [List.getElem?_append_right (by omega), List.getElem?_drop]
          congr 1
          omega
      rw [hcut, bucketsFrom]
      refine (bucket_block old c).append ?_
      rw [Nat.add_right_comm, ← hsucc]
      exact ih (by omega)

/-- After the first step the suffixes are sorted by their first byte. -/
theorem sortFirst_spec (old : Bytes) (a : Arrays)
    (hI : a.I.length = old.length + 1) (hV : a.V.length = old.length + 1) :
    ∃ I V order, sortFirst old a = some ⟨I, V⟩ ∧
      Stores old V (firstRank old) ∧
      Blocks old.length 1 (firstRank old) 0 I order ∧
      order.Perm (List.range (old.length + 1)) := by
  have hzero : Holds (List.replicate 256 0)
      fun c => (bucket old 0 c).length :=
    ⟨List.length_replicate, fun c hc => by
      rw [List.getElem?_replicate, if_pos hc]
      rfl⟩
  obtain ⟨counts, hcounts, hholds⟩ :=
    countBytes_spec old (i := 0) List.drop_zero hzero
  rw [Nat.zero_add] at hholds
  obtain ⟨sums, hsums, hholds⟩ := sumBuckets_spec old (n := old.length)
    Nat.one_pos (rfl : 1 + 255 = 256)
    ⟨hholds.length, fun c hc => by
      rw [hholds.read c hc]
      split
      · rw [show c = 0 by omega, below_succ, below_zero, Nat.zero_add]
      · rfl⟩
  obtain ⟨starts, hstarts, hholds⟩ := shiftBuckets_spec old
    (n := old.length) (i := 255) (by omega)
    ⟨hholds.length, fun c hc => by
      rw [hholds.read c hc, if_pos (by omega)]⟩
  obtain ⟨stops, I₁, hplace, hholds, hlength₁, hfilled₁⟩ :=
    placeSuffixes_spec old (i := 0) List.drop_zero hI
      ⟨hholds.length, fun c hc => by
        rw [hholds.read c hc]
        rfl⟩
      (by
        intro c _ m hm
        simp [bucket] at hm)
  rw [Nat.zero_add] at hholds hfilled₁
  have hstops : Holds stops fun c => below old old.length (c + 1) :=
    ⟨hholds.length, fun c hc => by rw [hholds.read c hc, below_succ]⟩
  obtain ⟨V₁, hranks, hlengthV, hread⟩ :=
    rankSuffixes_spec old (i := 0) List.drop_zero hV hstops
      (by omega)
  rw [Nat.zero_add] at hread
  obtain ⟨I₂, hmark, hlength₂, hfilled₂⟩ := markSingles_spec old
    (I := I₁.set 0 old.length) Nat.one_pos (rfl : 1 + 255 = 256)
    (by rw [List.length_set, hlength₁]) hstops
    (by
      intro c hc m hm
      have hentry : (if c < 1 then bucketEntries old c
          else (bucket old old.length c).map Int.ofNat) =
            (bucket old old.length c).map Int.ofNat := by
        split
        · rw [bucketEntries, if_pos (by omega)]
        · rfl
      simp only [hentry] at hm ⊢
      rw [List.getElem?_set_ne (by omega)]
      exact hfilled₁ c hc m hm)
  refine ⟨I₂.set 0 (-1), V₁.set old.length 0,
    old.length :: bucketsFrom old 256 0, ?_, ?_, ?_, bucketsFrom_perm old⟩
  · rw [sortFirst, hcounts]
    simp only [Option.bind_eq_bind, Option.bind_some]
    rw [hsums, Option.bind_some, hstarts, Option.bind_some, hplace,
      Option.bind_some]
    simp only [store]
    rw [if_pos (by omega), Option.bind_some, hranks, Option.bind_some,
      if_pos (by omega), hmark, Option.bind_some, if_pos (by omega),
      Option.bind_some]
  · refine ⟨by rw [List.length_set, hlengthV], fun s hs => ?_⟩
    by_cases hlt : s < old.length
    · rw [List.getElem?_set_ne (by omega), hread s hlt, firstRank_of_lt hlt]
    · have heq : s = old.length := by omega
      subst heq
      rw [List.getElem?_set_self (by omega), firstRank_end]
  · have hblocks := buckets_blocks hlength₂ (rfl : 0 + 256 = 256) hfilled₂
    rw [below_zero, Nat.zero_add] at hblocks
    have hhead : I₂.set 0 (-1) = [-1] ++ I₂.drop 1 := by
      cases I₂ with
      | nil => simp at hlength₂
      | cons p I₂ => rfl
    rw [hhead]
    exact (Blocks.single (firstRank_end old)).append hblocks

end Buckets

end Bsdiff

end MetaOS
