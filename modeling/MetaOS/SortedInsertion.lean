/-
Sorted lists that grow by insertion.  A slot for a new element is found by
halving an interval, and it lies behind an element of the same key if there is
one, so that of every key the element that came first stays the first.
-/
import Mathlib.Data.List.Basic
import Mathlib.Tactic

namespace MetaOS

namespace SortedInsertion

variable {α κ : Type}

def Sorted [LE κ] (key : α → κ) (xs : List α) : Prop :=
  xs.Pairwise fun x y => key x ≤ key y

/-- A new element of key `k` may be put in front of `xs.drop target`. -/
structure Slot [LE κ] (key : α → κ) (xs : List α) (k : κ) (target : Nat) :
    Prop where
  below : ∀ y ∈ xs.take target, key y ≤ k
  above : ∀ y ∈ xs.drop target, k ≤ key y
  behind : ∀ y ∈ xs.drop target, key y = k →
    ∃ z ∈ xs.take target, key z = k

/-- What a search for `k` knows of the elements outside its interval. -/
structure Narrowed [LT κ] (key : α → κ) (xs : List α) (k : κ)
    (low high : Int) : Prop where
  low_nonneg : 0 ≤ low
  high_lt : high < xs.length
  meet : low ≤ high + 1
  below : ∀ i (hi : i < xs.length), (i : Int) < low → key xs[i] < k
  above : ∀ i (hi : i < xs.length), high < i → k < key xs[i]

/-- `entries` holds the elements that `came`, sorted, with the first of every
key in front of the others. -/
structure Arranged [LE κ] [BEq κ] (key : α → κ) (came entries : List α) :
    Prop where
  perm : entries.Perm came
  sorted : Sorted key entries
  first (k : κ) :
    entries.find? (fun x => key x == k) = came.find? fun x => key x == k

theorem arranged_nil [LE κ] [BEq κ] (key : α → κ) :
    Arranged key [] ([] : List α) :=
  ⟨List.Perm.nil, List.Pairwise.nil, fun _ => rfl⟩

section Search

variable {key : α → κ} {xs : List α} {k : κ} {low high : Int}

theorem narrowed_all [LT κ] (key : α → κ) (xs : List α) (k : κ) :
    Narrowed key xs k 0 ((xs.length : Int) - 1) := by
  refine ⟨le_rfl, by omega, by omega, ?_, ?_⟩
  · intro i hi hlt
    omega
  · intro i hi hlt
    omega

theorem mem_take_iff {target : Nat} {y : α} :
    y ∈ xs.take target ↔ ∃ i, ∃ hi : i < xs.length, i < target ∧ xs[i] = y := by
  rw [List.mem_take_iff_getElem]
  constructor
  · rintro ⟨i, hi, rfl⟩
    exact ⟨i, by omega, by omega, rfl⟩
  · rintro ⟨i, hi, htarget, rfl⟩
    exact ⟨i, by omega, rfl⟩

theorem mem_drop_iff {target : Nat} {y : α} :
    y ∈ xs.drop target ↔ ∃ i, ∃ hi : i < xs.length, target ≤ i ∧ xs[i] = y := by
  rw [List.mem_drop_iff_getElem]
  constructor
  · rintro ⟨i, hi, rfl⟩
    exact ⟨target + i, by omega, by omega, rfl⟩
  · rintro ⟨i, hi, htarget, rfl⟩
    refine ⟨i - target, by omega, ?_⟩
    congr 1
    omega

variable [LE κ]

/-- An empty interval is a slot, and no element has the key. -/
theorem Narrowed.slot [LT κ] [Std.LawfulOrderLT κ]
    (h : Narrowed key xs k low high) (hdone : high < low) :
    Slot key xs k (high + 1).toNat := by
  have hmeet := h.meet
  have hnonneg := h.low_nonneg
  constructor
  · intro y hy
    obtain ⟨i, hi, htarget, rfl⟩ := mem_take_iff.mp hy
    exact Std.le_of_lt (h.below i hi (by omega))
  · intro y hy
    obtain ⟨i, hi, htarget, rfl⟩ := mem_drop_iff.mp hy
    exact Std.le_of_lt (h.above i hi (by omega))
  · intro y hy heq
    obtain ⟨i, hi, htarget, rfl⟩ := mem_drop_iff.mp hy
    have hgt := h.above i hi (by omega)
    rw [heq] at hgt
    exact absurd hgt (Std.lt_irrefl)

variable [Std.IsLinearOrder κ]

theorem Sorted.get_le (hsorted : Sorted key xs) {i j : Nat} (hij : i ≤ j)
    (hj : j < xs.length) : key xs[i] ≤ key xs[j] := by
  obtain hlt | rfl := Nat.lt_or_eq_of_le hij
  · exact List.pairwise_iff_getElem.mp hsorted i j _ hj hlt
  · exact Std.le_refl _

/-- The place behind an element of the key is a slot. -/
theorem Sorted.slot (hsorted : Sorted key xs) {mid : Nat}
    (hmid : mid < xs.length) (heq : key xs[mid] = k) :
    Slot key xs k (mid + 1) := by
  subst heq
  constructor
  · intro y hy
    obtain ⟨i, hi, htarget, rfl⟩ := mem_take_iff.mp hy
    exact hsorted.get_le (by omega) hmid
  · intro y hy
    obtain ⟨i, hi, htarget, rfl⟩ := mem_drop_iff.mp hy
    exact hsorted.get_le (by omega) hi
  · intro y hy heq
    exact ⟨xs[mid], mem_take_iff.mpr ⟨mid, hmid, by omega, rfl⟩, rfl⟩

variable [LT κ] [Std.LawfulOrderLT κ]

/-- The middle element is too small, and with it all before it. -/
theorem Narrowed.right (hsorted : Sorted key xs)
    (h : Narrowed key xs k low high) {mid : Nat} (hmid : mid < xs.length)
    (hhigh : mid ≤ high) (hlt : key xs[mid] < k) :
    Narrowed key xs k (mid + 1) high := by
  refine ⟨by omega, h.high_lt, by omega, ?_, h.above⟩
  intro i hi hbefore
  exact Std.lt_of_le_of_lt (hsorted.get_le (by omega) hmid) hlt

/-- The middle element is too great, and with it all behind it. -/
theorem Narrowed.left (hsorted : Sorted key xs)
    (h : Narrowed key xs k low high) {mid : Nat} (hmid : mid < xs.length)
    (hlow : low ≤ mid) (hlt : k < key xs[mid]) :
    Narrowed key xs k low (mid - 1) := by
  have hnonneg := h.low_nonneg
  have hhigh_lt := h.high_lt
  refine ⟨hnonneg, by omega, by omega, h.below, ?_⟩
  intro i hi hbehind
  exact Std.lt_of_lt_of_le hlt (hsorted.get_le (by omega) hi)

end Search

section Insertion

variable [LE κ] {key : α → κ} {xs : List α} {x : α}
  {target : Nat}

theorem Slot.sorted (hslot : Slot key xs (key x) target)
    (hsorted : Sorted key xs) :
    Sorted key (xs.take target ++ x :: xs.drop target) := by
  rw [Sorted, ← List.take_append_drop target xs, List.pairwise_append]
    at hsorted
  obtain ⟨htake, hdrop, hcross⟩ := hsorted
  apply List.pairwise_append.mpr
  refine ⟨htake, List.pairwise_cons.mpr ⟨hslot.above, hdrop⟩, ?_⟩
  intro y hy z hz
  cases List.mem_cons.mp hz with
  | inl heq =>
      subst heq
      exact hslot.below y hy
  | inr hmem => exact hcross y hy z hmem

variable [BEq κ] [LawfulBEq κ]

/-- For the first element of a key, the new element might as well stand at the
end. -/
theorem Slot.first (hslot : Slot key xs (key x) target) (k : κ) :
    (xs.take target ++ x :: xs.drop target).find? (fun y => key y == k) =
      (xs ++ [x]).find? fun y => key y == k := by
  have hsplit : xs.find? (fun y => key y == k) =
      ((xs.take target).find? fun y => key y == k).or
        ((xs.drop target).find? fun y => key y == k) := by
    rw [← List.find?_append, List.take_append_drop]
  rw [List.find?_append, List.find?_append, hsplit, List.find?_cons]
  by_cases hk : key x = k
  · have hkey : (key x == k) = true := by simpa using hk
    have hlast : [x].find? (fun y => key y == k) = some x := by simp [hk]
    rw [hkey, hlast]
    cases htake : (xs.take target).find? fun y => key y == k with
    | some y => rfl
    | none =>
        -- Behind the slot there is no element of the key either.
        have hdrop : (xs.drop target).find? (fun y => key y == k) = none := by
          apply List.find?_eq_none.mpr
          intro y hy hyk
          obtain ⟨z, hz, hzk⟩ := hslot.behind y hy (by simpa [hk] using hyk)
          exact List.find?_eq_none.mp htake z hz (by simp [hzk, hk])
        rw [hdrop]
        rfl
  · have hkey : (key x == k) = false := by simpa using hk
    have hlast : [x].find? (fun y => key y == k) = none := by simp [hk]
    rw [hkey, hlast, Option.or_none]

/-- One more element comes and is put into its slot. -/
theorem Arranged.insert {came : List α} (h : Arranged key came xs)
    (hslot : Slot key xs (key x) target) :
    Arranged key (came ++ [x]) (xs.take target ++ x :: xs.drop target) := by
  constructor
  · calc
      (xs.take target ++ x :: xs.drop target).Perm
          (x :: (xs.take target ++ xs.drop target)) := List.perm_middle
      _ = x :: xs := by rw [List.take_append_drop]
      _ |>.Perm (x :: came) := h.perm.cons x
      _ |>.Perm (came ++ [x]) := (List.perm_append_singleton x came).symm
  · exact hslot.sorted h.sorted
  · intro k
    rw [hslot.first k, List.find?_append, List.find?_append, h.first k]

end Insertion

end SortedInsertion

end MetaOS
