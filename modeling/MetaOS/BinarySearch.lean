/-
Binary search in a sorted list, as the C library does it: the element in the
middle is looked at, and the search goes on in the part that is left or right
of it.
-/
import Mathlib.Data.List.Sort
import Mathlib.Order.Compare

namespace MetaOS

namespace BinarySearch

variable {α κ : Type} [LinearOrder κ] (key : α → κ)

/-- `fuel` bounds the number of elements that are looked at. -/
def bsearch (k : κ) : (fuel : Nat) → List α → Option α
  | 0, _ => none
  | fuel + 1, table =>
      match table[table.length / 2]? with
      | none => none
      | some x =>
          match cmp k (key x) with
          | .eq => some x
          | .gt => bsearch k fuel (table.drop (table.length / 2 + 1))
          | .lt => bsearch k fuel (table.take (table.length / 2))

theorem bsearch_succ (k : κ) (fuel : Nat) (table : List α) :
    bsearch key k (fuel + 1) table =
      match table[table.length / 2]? with
      | none => none
      | some x =>
          match cmp k (key x) with
          | .eq => some x
          | .gt => bsearch key k fuel (table.drop (table.length / 2 + 1))
          | .lt => bsearch key k fuel (table.take (table.length / 2)) := rfl

variable {key} {k : κ}

/-- What is found is in the list and has the key. -/
theorem mem_of_bsearch {fuel : Nat} {table : List α} {x : α}
    (hfound : bsearch key k fuel table = some x) :
    x ∈ table ∧ key x = k := by
  induction fuel generalizing table with
  | zero => cases hfound
  | succ fuel ih =>
      rw [bsearch_succ] at hfound
      cases hmiddle : table[table.length / 2]? with
      | none =>
          rw [hmiddle] at hfound
          cases hfound
      | some y =>
          rw [hmiddle] at hfound
          dsimp only at hfound
          cases hcmp : cmp k (key y) with
          | eq =>
              rw [hcmp] at hfound
              obtain rfl := Option.some.inj hfound
              exact ⟨List.mem_of_getElem? hmiddle,
                ((cmp_eq_eq_iff _ _).mp hcmp).symm⟩
          | gt =>
              rw [hcmp] at hfound
              obtain ⟨hmem, hkey⟩ := ih hfound
              exact ⟨List.mem_of_mem_drop hmem, hkey⟩
          | lt =>
              rw [hcmp] at hfound
              obtain ⟨hmem, hkey⟩ := ih hfound
              exact ⟨List.mem_of_mem_take hmem, hkey⟩

/-- In a sorted list, a key that is there is found. -/
theorem exists_bsearch {fuel : Nat} {table : List α} {x : α}
    (hfuel : table.length ≤ fuel)
    (hsorted : table.Pairwise fun a b => key a ≤ key b) (hmem : x ∈ table) :
    ∃ y, bsearch key (key x) fuel table = some y := by
  induction fuel generalizing table with
  | zero =>
      rw [List.length_eq_zero_iff.mp (Nat.le_zero.mp hfuel)] at hmem
      cases hmem
  | succ fuel ih =>
      have hpos : 0 < table.length := List.length_pos_of_mem hmem
      have hlt : table.length / 2 < table.length := by omega
      have hsplit : table = table.take (table.length / 2) ++
          table[table.length / 2] :: table.drop (table.length / 2 + 1) := by
        rw [← List.drop_eq_getElem_cons hlt, List.take_append_drop]
      rw [hsplit, List.pairwise_append, List.pairwise_cons] at hsorted
      obtain ⟨hleft, ⟨hbehind, hright⟩, hcross⟩ := hsorted
      rw [hsplit, List.mem_append, List.mem_cons] at hmem
      rw [bsearch_succ, List.getElem?_eq_getElem hlt]
      dsimp only
      -- a key that is not the middle one can only be on its side
      cases hcmp : cmp (key x) (key table[table.length / 2]) with
      | eq => exact ⟨_, rfl⟩
      | gt =>
          have hkey := (cmp_eq_gt_iff _ _).mp hcmp
          apply ih (by rw [List.length_drop]; omega) hright
          obtain hmem | rfl | hmem := hmem
          · exact absurd (hcross x hmem _ (List.mem_cons_self ..))
              (not_le.mpr hkey)
          · exact absurd hkey (lt_irrefl _)
          · exact hmem
      | lt =>
          have hkey := (cmp_eq_lt_iff _ _).mp hcmp
          apply ih (by rw [List.length_take]; omega) hleft
          obtain hmem | rfl | hmem := hmem
          · exact hmem
          · exact absurd hkey (lt_irrefl _)
          · exact absurd (hbehind x hmem) (not_le.mpr hkey)

end BinarySearch

end MetaOS
