/-
Threads in a list, each at a program counter of its own.  A step replaces one
of them, and an invariant counts those at a kind of place.
-/
import Mathlib.Data.List.Basic

namespace MetaOS

namespace ThreadPools

variable {Pc : Type} {threads : List Pc} {i : Nat} {pc : Pc} {p : Pc → Bool}

theorem getElem?_set_of (hpc : threads[i]? = some pc) (pc' : Pc) :
    (threads.set i pc')[i]? = some pc' :=
  List.getElem?_set_self (List.getElem?_eq_some_iff.mp hpc).1

/-- How a count changes when one thread goes on. -/
theorem countP_set_add (hpc : threads[i]? = some pc) (pc' : Pc)
    (p : Pc → Bool) :
    (threads.set i pc').countP p + (p pc).toNat =
      threads.countP p + (p pc').toNat := by
  obtain ⟨hi, rfl⟩ := List.getElem?_eq_some_iff.mp hpc
  have hpos : p threads[i] = true → 0 < threads.countP p := fun hp =>
    List.countP_pos_iff.mpr ⟨_, List.getElem_mem hi, hp⟩
  rw [List.countP_set hi]
  cases hold : p threads[i] with
  | false =>
      cases hnew : p pc' with
      | false => simp
      | true => simp
  | true =>
      have hcount := hpos hold
      cases hnew : p pc' with
      | false =>
          simp
          omega
      | true =>
          simp
          omega

theorem countP_pos (hpc : threads[i]? = some pc) (hp : p pc = true) :
    0 < threads.countP p :=
  List.countP_pos_iff.mpr ⟨pc, List.mem_of_getElem? hpc, hp⟩

/-- A thread stays at a kind of place. -/
theorem countP_set_pos (hpc : threads[i]? = some pc) {pc' : Pc}
    (hkeeps : p pc = true → p pc' = true) (hpos : 0 < threads.countP p) :
    0 < (threads.set i pc').countP p := by
  have hcount := countP_set_add hpc pc' p
  cases hold : p pc with
  | false =>
      rw [hold, Bool.toNat_false, Nat.add_zero] at hcount
      rw [hcount]
      exact Nat.lt_of_lt_of_le hpos (Nat.le_add_right _ _)
  | true =>
      rw [hold, hkeeps hold] at hcount
      rw [Nat.add_right_cancel hcount]
      exact hpos

/-- A thread comes to a kind of place. -/
theorem countP_set_new (hpc : threads[i]? = some pc) {pc' : Pc}
    (hnew : p pc' = true) : 0 < (threads.set i pc').countP p := by
  obtain ⟨hi, -⟩ := List.getElem?_eq_some_iff.mp hpc
  exact List.countP_pos_iff.mpr
    ⟨pc', List.mem_set hi pc', hnew⟩

/-- No thread comes to a kind of place. -/
theorem countP_set_zero (hpc : threads[i]? = some pc) {pc' : Pc}
    (hnew : p pc' = true → p pc = true) (hzero : threads.countP p = 0) :
    (threads.set i pc').countP p = 0 := by
  rw [List.countP_eq_zero] at hzero ⊢
  intro other hother
  rcases List.mem_or_eq_of_mem_set hother with hother | rfl
  · exact hzero other hother
  · exact fun h => hzero pc (List.mem_of_getElem? hpc) (hnew h)

/-- Two threads at a kind of place where there is one at most. -/
theorem eq_of_countP_le_one (hcount : threads.countP p ≤ 1) {pc' : Pc}
    (hmem : pc ∈ threads) (hmem' : pc' ∈ threads) (hp : p pc = true)
    (hp' : p pc' = true) : pc = pc' := by
  rw [List.countP_eq_length_filter] at hcount
  have hfilter : pc ∈ threads.filter p := List.mem_filter.mpr ⟨hmem, hp⟩
  have hfilter' : pc' ∈ threads.filter p := List.mem_filter.mpr ⟨hmem', hp'⟩
  cases hlist : threads.filter p with
  | nil =>
      rw [hlist] at hfilter
      cases hfilter
  | cons first rest =>
      rw [hlist, List.length_cons] at hcount
      obtain rfl := List.length_eq_zero_iff.mp (show rest.length = 0 by omega)
      rw [hlist, List.mem_singleton] at hfilter hfilter'
      exact hfilter.trans hfilter'.symm

end ThreadPools

end MetaOS
