/-
`search` in a sorted index.  It compares with `memcmp` on as many bytes as
both strings have, so a suffix that runs out where it agrees with the new
data counts as greater; where no suffix does, the match found is a longest
one.
-/
import MetaOS.SuffixSortRuns

namespace MetaOS

namespace Bsdiff

section Order

variable {a b c : Bytes}

theorem memcmpNegative_lt (h : memcmpNegative a c = true) : a < c := by
  induction a generalizing c with
  | nil => cases h
  | cons x a ih =>
      cases c with
      | nil => cases h
      | cons z c =>
          rw [memcmpNegative] at h
          rw [List.cons_lt_cons_iff]
          split at h
          · rename_i heq
            exact Or.inr ⟨heq, ih h⟩
          · exact Or.inl (of_decide_eq_true h)

/-- A lesser string that is not found to be less is a prefix. -/
theorem prefix_of_memcmpNegative_false (hlt : a < c)
    (h : memcmpNegative a c = false) : a <+: c := by
  induction a generalizing c with
  | nil => exact List.nil_prefix
  | cons x a ih =>
      cases c with
      | nil => cases hlt
      | cons z c =>
          rw [memcmpNegative] at h
          rw [List.cons_lt_cons_iff] at hlt
          split at h
          · rename_i heq
            subst heq
            rcases hlt with hlt | ⟨-, hlt⟩
            · exact absurd hlt (by simp)
            · exact (List.cons_prefix_cons).mpr ⟨rfl, ih hlt h⟩
          · rename_i hne
            rcases hlt with hlt | ⟨heq, -⟩
            · exact absurd hlt (of_decide_eq_false h)
            · exact absurd heq hne

/-- Of two strings below `c` the greater agrees longer with it. -/
theorem matchlen_le_of_lt_lt (hab : a < b) (hbc : b < c) :
    matchlen a c ≤ matchlen b c := by
  induction c generalizing a b with
  | nil => cases hbc
  | cons z c ih =>
      cases a with
      | nil => simp [matchlen]
      | cons x a =>
          cases b with
          | nil => cases hab
          | cons y b =>
              rw [List.cons_lt_cons_iff, UInt8.lt_iff_toNat_lt] at hab hbc
              rw [matchlen, matchlen]
              by_cases hxz : x = z
              · subst hxz
                rcases hab with hab | ⟨rfl, hab⟩
                · rcases hbc with hbc | ⟨rfl, -⟩
                  · omega
                  · omega
                · rcases hbc with hbc | ⟨-, hbc⟩
                  · omega
                  · rw [if_pos rfl, if_pos rfl]
                    exact Nat.succ_le_succ (ih hab hbc)
              · rw [if_neg hxz]
                exact Nat.zero_le _

/-- Of two strings that are not below `c` the lesser agrees longer with it. -/
theorem matchlen_le_of_not_lt (hac : ¬ a < c) (hab : a < b) :
    matchlen b c ≤ matchlen a c := by
  induction c generalizing a b with
  | nil =>
      cases b with
      | nil => cases hab
      | cons y b => simp [matchlen]
  | cons z c ih =>
      cases a with
      | nil => exact absurd (List.nil_lt_cons z c) hac
      | cons x a =>
          cases b with
          | nil => cases hab
          | cons y b =>
              rw [List.cons_lt_cons_iff, UInt8.lt_iff_toNat_lt] at hab hac
              rw [not_or, not_and] at hac
              rw [matchlen, matchlen]
              by_cases hyz : y = z
              · subst hyz
                rcases hab with hab | ⟨rfl, hab⟩
                · omega
                · rw [if_pos rfl, if_pos rfl]
                  exact Nat.succ_le_succ (ih (hac.2 rfl) hab)
              · rw [if_neg hyz]
                exact Nat.zero_le _

end Order

section Search

variable {index : List Nat} {old new : Bytes}

/-- Where the search stands: the ends are on their side of the new data. -/
structure Searching (index : List Nat) (old new : Bytes) (st en : Nat) :
    Prop where
  st_le : st ≤ en
  en_le : en ≤ old.length
  low : ∀ p, index[st]? = some p → 0 < st → old.drop p < new
  high : ∀ p, index[en]? = some p → en < old.length → ¬ old.drop p < new

theorem SuffixArray.entry_lt (harray : SuffixArray index old) {i j p q : Nat}
    (hij : i < j) (hp : index[i]? = some p) (hq : index[j]? = some q) :
    old.drop p < old.drop q := by
  obtain ⟨hi, rfl⟩ := List.getElem?_eq_some_iff.mp hp
  obtain ⟨hj, rfl⟩ := List.getElem?_eq_some_iff.mp hq
  exact List.pairwise_iff_getElem.mp harray.sorted i j hi hj hij

/-- Only the first entry is the empty suffix. -/
theorem SuffixArray.entry_nonempty (harray : SuffixArray index old) {i p : Nat}
    (hi : 0 < i) (hp : index[i]? = some p) : p < old.length := by
  have hlt : 0 < index.length := by
    rw [harray.indexes.length]
    omega
  have hless := harray.entry_lt hi (List.getElem?_eq_getElem hlt) hp
  by_contra hge
  rw [List.drop_eq_nil_of_le (by omega : old.length ≤ p)] at hless
  exact absurd hless (List.not_lt_nil _)

theorem SuffixArray.entry (harray : SuffixArray index old) {i : Nat}
    (hi : i ≤ old.length) : ∃ p, index[i]? = some p ∧ p ≤ old.length :=
  harray.indexes.entry hi

/-- Every suffix has a place. -/
theorem SuffixArray.place (harray : SuffixArray index old) {s : Nat}
    (hs : s ≤ old.length) : ∃ i, i ≤ old.length ∧ index[i]? = some s := by
  have hmem : s ∈ index := by
    rw [harray.perm.mem_iff, List.mem_range]
    omega
  obtain ⟨i, hi, heq⟩ := List.getElem_of_mem hmem
  rw [harray.indexes.length] at hi
  exact ⟨i, by omega, by
    rw [List.getElem?_eq_getElem (by rw [harray.indexes.length]; omega), heq]⟩

/-- What lies below the search matches no longer than its low end. -/
theorem Searching.low_longest (harray : SuffixArray index old)
    {st en i p s : Nat}
    (hsearch : Searching index old new st en) (hp : index[st]? = some p)
    (hs : index[i]? = some s) (hi : i ≤ st) :
    matchlen (old.drop s) new ≤ matchlen (old.drop p) new := by
  rcases Nat.lt_or_eq_of_le hi with hlt | rfl
  · exact matchlen_le_of_lt_lt (harray.entry_lt hlt hs hp)
      (hsearch.low p hp (by omega))
  · rw [hs, Option.some_inj] at hp
    rw [hp]

theorem Searching.high_longest (harray : SuffixArray index old)
    {st en i p s : Nat} (hsearch : Searching index old new st en)
    (hp : index[en]? = some p) (hs : index[i]? = some s) (hi : en ≤ i)
    (hlast : i ≤ old.length) :
    matchlen (old.drop s) new ≤ matchlen (old.drop p) new := by
  rcases Nat.lt_or_eq_of_le hi with hlt | rfl
  · exact matchlen_le_of_not_lt (hsearch.high p hp (by omega))
      (harray.entry_lt hlt hp hs)
  · rw [hs, Option.some_inj] at hp
    rw [hp]

theorem search_longest_from (harray : SuffixArray index old)
    (hends : ∀ s < old.length, old.drop s <+: new → old.drop s = new)
    {fuel st en : Nat} (hsearch : Searching index old new st en)
    (hfuel : en - st < fuel) :
    ∃ len pos, search index old new fuel st en = some (len, pos) ∧
      pos ≤ old.length ∧ len = matchlen (old.drop pos) new ∧
      ∀ s ≤ old.length, matchlen (old.drop s) new ≤ len := by
  induction fuel generalizing st en with
  | zero => omega
  | succ fuel ih =>
      have hst := hsearch.st_le
      have hen := hsearch.en_le
      rw [search]
      by_cases hshort : en - st < 2
      · obtain ⟨first, hfirst, hfirst_le⟩ := harray.entry (hst.trans hen)
        obtain ⟨last, hlast, hlast_le⟩ := harray.entry hen
        have hlongest : ∀ s ≤ old.length,
            matchlen (old.drop s) new ≤ matchlen (old.drop first) new ∨
              matchlen (old.drop s) new ≤ matchlen (old.drop last) new := by
          intro s hs
          obtain ⟨i, hi, hplace⟩ := harray.place hs
          rcases Nat.lt_or_ge i en with hlow | hhigh
          · exact Or.inl (hsearch.low_longest harray hfirst hplace (by omega))
          · exact Or.inr (hsearch.high_longest harray hlast hplace hhigh hi)
        simp only [if_pos hshort, hfirst, hlast, Option.bind_eq_bind,
          Option.bind_some]
        split
        · refine ⟨_, _, rfl, hfirst_le, rfl, fun s hs => ?_⟩
          have hbest := hlongest s hs
          omega
        · refine ⟨_, _, rfl, hlast_le, rfl, fun s hs => ?_⟩
          have hbest := hlongest s hs
          omega
      · obtain ⟨middle, hmiddle, -⟩ :=
          harray.entry (by omega : st + (en - st) / 2 ≤ old.length)
        have hinside := harray.entry_nonempty (by omega) hmiddle
        simp only [if_neg hshort, hmiddle, Option.bind_eq_bind,
          Option.bind_some]
        cases hcompare : memcmpNegative (old.drop middle) new with
        | true =>
            rw [if_pos rfl]
            refine ih ⟨by omega, hen, ?_, hsearch.high⟩ (by omega)
            intro p hp _
            rw [hmiddle, Option.some_inj] at hp
            exact hp ▸ memcmpNegative_lt hcompare
        | false =>
            rw [if_neg (by simp)]
            refine ih ⟨by omega, by omega, hsearch.low, ?_⟩ (by omega)
            intro p hp _ hlt
            rw [hmiddle, Option.some_inj] at hp
            subst hp
            -- a suffix that is less and not found to be less would run out
            have hsame := hends middle hinside
              (prefix_of_memcmpNegative_false hlt hcompare)
            rw [hsame] at hlt
            exact List.lt_irrefl new hlt

/-- `search` in a sorted index finds a longest match, when no suffix of the
old data runs out where it agrees with the new data. -/
theorem search_longest (old new : Bytes) (index : List Nat)
    (harray : SuffixArray index old)
    (hends : ∀ s < old.length, old.drop s <+: new → old.drop s = new) :
    ∃ len pos,
      search index old new (old.length + 1) 0 old.length = some (len, pos) ∧
      pos ≤ old.length ∧ len = matchlen (old.drop pos) new ∧
      ∀ s ≤ old.length, matchlen (old.drop s) new ≤ len :=
  search_longest_from harray hends
    ⟨Nat.zero_le _, le_rfl, fun _ _ h => absurd h (lt_irrefl 0),
      fun _ _ h => absurd h (lt_irrefl _)⟩ (by omega)

/-- The suffix `a` runs out where it agrees with the new data `aa`, and the
longer match is not found. -/
example : search [2, 1, 0] [97, 97] [97, 97] 3 0 2 = some (1, 1) := by decide

end Search

namespace SuffixSearchWitness

def old : Bytes := Bytes.ofString "abcabc"

def index : List Nat := [6, 3, 0, 4, 1, 5, 2]

theorem index_sorted : SuffixArray index old :=
  ⟨by decide, by decide⟩

theorem abx_longest : search index old (Bytes.ofString "abx") 7 0 6 =
      some (2, 0) ∧
    ∃ len pos, search index old (Bytes.ofString "abx") 7 0 6 =
        some (len, pos) ∧ pos ≤ 6 ∧
      len = matchlen (old.drop pos) (Bytes.ofString "abx") ∧
      ∀ s ≤ 6, matchlen (old.drop s) (Bytes.ofString "abx") ≤ len :=
  ⟨by decide, search_longest old (Bytes.ofString "abx") index index_sorted
    (by decide)⟩

end SuffixSearchWitness

end Bsdiff

end MetaOS
