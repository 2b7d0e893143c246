/-
Sorting steps on part of an array by a key: bringing the elements with the
least key to the front, and partition into less, equal and greater, both by
exchanges in place.  An access outside the array, or an element without a
key, makes a step fail.  What the steps do is said about the array as the
part before, the part sorted and the part behind it.
-/
import Mathlib.Data.List.Perm.Basic
import Mathlib.Tactic

namespace MetaOS

namespace ThreeWay

variable {α κ : Type}

/-- Two elements change places. -/
def exchange (array : List α) (i j : Nat) : Option (List α) := do
  let a ← array[i]?
  let b ← array[j]?
  some ((array.set i b).set j a)

theorem read_behind {before after : List α} {a : α} {i : Nat}
    (hi : i = before.length) : (before ++ a :: after)[i]? = some a := by
  simp [hi]

theorem exchange_self (before after : List α) (a : α) :
    exchange (before ++ a :: after) before.length before.length =
      some (before ++ a :: after) := by
  simp [exchange]

theorem exchange_eq (before middle after : List α) (a b : α) :
    exchange (before ++ a :: (middle ++ b :: after)) before.length
        (before.length + (middle.length + 1)) =
      some (before ++ b :: (middle ++ a :: after)) := by
  have hsecond : (before ++ a :: (middle ++ b :: after))[
      before.length + (middle.length + 1)]? = some b := by
    simp
  simp only [exchange, hsecond, List.getElem?_append_right le_rfl,
    Nat.sub_self, List.getElem?_cons_zero, Option.bind_eq_bind,
    Option.bind_some]
  simp [List.set_append_right]

theorem exchange_between (before middle after : List α) (a b : α) {i j : Nat}
    (hi : i = before.length) (hj : j = i + (middle.length + 1)) :
    exchange (before ++ a :: (middle ++ b :: after)) i j =
      some (before ++ b :: (middle ++ a :: after)) := by
  rw [hj, hi, exchange_eq]

theorem exchange_perm (middle after : List α) (a b : α) :
    (a :: (middle ++ b :: after)).Perm (b :: (middle ++ a :: after)) :=
  ((List.perm_middle).cons a).trans
    ((List.Perm.swap b a _).trans (List.perm_middle.symm.cons b))

/-- The front element of a part moves behind the part that follows it, whose
next element takes its place. -/
theorem exchange_front (before part next after : List α) (a : α) {i j : Nat}
    (hi : i = before.length) (hj : j = before.length + part.length) :
    ∃ moved, exchange (before ++ (part ++ a :: (next ++ after))) i j =
        some (before ++ a :: (moved ++ (next ++ after))) ∧
      (a :: moved).Perm (part ++ [a]) ∧ moved.Perm part := by
  subst hi hj
  cases part with
  | nil =>
      refine ⟨[], ?_, by simp, by simp⟩
      simpa using exchange_self before (next ++ after) a
  | cons b part =>
      refine ⟨part ++ [b], ?_, ?_, ?_⟩
      · have hexchange := exchange_eq before part (next ++ after) b a
        simpa [List.append_assoc] using hexchange
      · have hmoved : (part ++ [b]).Perm (b :: part) :=
          List.perm_append_singleton b part
        exact (hmoved.cons a).trans
          (List.perm_append_singleton a (b :: part)).symm
      · exact List.perm_append_singleton b part

section Key

variable [LinearOrder κ] (key : α → Option κ)

/-- From `k + i` on, bring elements with the least key `x` to `k`, where `j`
of them already are. -/
def gatherLeast (k : Nat) :
    (count i j : Nat) → (x : κ) → List α → Option (Nat × List α)
  | 0, _, j, _, array => some (j, array)
  | count + 1, i, j, x, array => do
      let a ← array[k + i]?
      let y ← key a
      let j := if y < x then 0 else j
      let x := if y < x then y else x
      if y = x then
        let array ← exchange array (k + j) (k + i)
        gatherLeast k count (i + 1) (j + 1) x array
      else gatherLeast k count (i + 1) j x array

/-- How many elements have a key less than the pivot `x`, and how many one
that is equal. -/
def countKeys (x : κ) :
    (count i less equal : Nat) → List α → Option (Nat × Nat)
  | 0, _, less, equal, _ => some (less, equal)
  | count + 1, i, less, equal, array => do
      let a ← array[i]?
      let y ← key a
      countKeys x count (i + 1) (if y < x then less + 1 else less)
        (if y = x then equal + 1 else equal) array

/-- The part below `low` is filled with keys less than the pivot; what is
found there goes to `low + j` or `high + k`. -/
def fillLow (x : κ) (low high : Nat) :
    (fuel i j k : Nat) → List α → Option (Nat × Nat × List α)
  | 0, _, _, _, _ => none
  | fuel + 1, i, j, k, array =>
      if i < low then do
        let a ← array[i]?
        let y ← key a
        if y < x then fillLow x low high fuel (i + 1) j k array
        else if y = x then
          let array ← exchange array i (low + j)
          fillLow x low high fuel i (j + 1) k array
        else
          let array ← exchange array i (high + k)
          fillLow x low high fuel i j (k + 1) array
      else some (j, k, array)

/-- The part between `low` and `high` is filled with keys equal to the
pivot; what is found there goes to `high + k`. -/
def fillMiddle (x : κ) (low high : Nat) :
    (fuel j k : Nat) → List α → Option (List α)
  | 0, _, _, _ => none
  | fuel + 1, j, k, array =>
      if low + j < high then do
        let a ← array[low + j]?
        let y ← key a
        if y = x then fillMiddle x low high fuel (j + 1) k array
        else
          let array ← exchange array (low + j) (high + k)
          fillMiddle x low high fuel j (k + 1) array
      else some array

/-- The elements of `lead` have one key, which is less than the keys of
`rest`. -/
structure Leads (val : α → κ) (lead rest : List α) : Prop where
  nonempty : lead ≠ []
  tied : ∀ a ∈ lead, ∀ b ∈ lead, val a = val b
  less : ∀ a ∈ lead, ∀ b ∈ rest, val a < val b

variable {val : α → κ}

theorem gatherLeast_spec (before lead rest todo after : List α)
    {k count i j : Nat} {x : κ}
    (hk : k = before.length) (hj : j = lead.length)
    (hi : i = lead.length + rest.length) (hcount : count = todo.length)
    (hkey : ∀ a ∈ todo, key a = some (val a)) (hne : lead ≠ [])
    (hlead : ∀ a ∈ lead, val a = x) (hrest : ∀ a ∈ rest, x < val a) :
    ∃ lead' rest', gatherLeast key k count i j x
          (before ++ (lead ++ (rest ++ (todo ++ after)))) =
        some (lead'.length, before ++ (lead' ++ (rest' ++ after))) ∧
      (lead' ++ rest').Perm (lead ++ (rest ++ todo)) ∧
      Leads val lead' rest' := by
  induction todo generalizing lead rest count i j x with
  | nil =>
      subst hcount
      refine ⟨lead, rest, by simp [gatherLeast, hj], by simp, hne, ?_, ?_⟩
      · intro a ha b hb
        rw [hlead a ha, hlead b hb]
      · intro a ha b hb
        rw [hlead a ha]
        exact hrest b hb
  | cons c todo ih =>
      subst hcount
      have hc : key c = some (val c) := hkey c List.mem_cons_self
      have htodo : ∀ a ∈ todo, key a = some (val a) :=
        fun a ha => hkey a (List.mem_cons_of_mem c ha)
      have hread : (before ++ (lead ++ (rest ++ (c :: todo ++ after))))[k + i]?
          = some c := by
        have hbehind : (before ++ (lead ++ rest) ++
            c :: (todo ++ after))[k + i]? = some c :=
          read_behind (by simp only [List.length_append]; omega)
        simpa using hbehind
      rw [List.length_cons, gatherLeast, hread]
      simp only [hc, Option.bind_eq_bind, Option.bind_some]
      rcases lt_trichotomy (val c) x with hlt | heq | hgt
      · -- a new least key: everything seen so far goes behind `c`
        obtain ⟨moved, hexchange, -, hmoved⟩ :=
          exchange_front before (lead ++ rest) todo after c (i := k + 0)
            (j := k + i) (by omega) (by rw [List.length_append]; omega)
        have hmem : ∀ b ∈ moved, val c < val b := by
          intro b hb
          rcases List.mem_append.mp (hmoved.mem_iff.mp hb) with hb | hb
          · rwa [hlead b hb]
          · exact hlt.trans (hrest b hb)
        obtain ⟨lead', rest', hrun, hperm, hleads⟩ :=
          ih [c] moved (i := i + 1) (j := 1) (x := val c) rfl
            (by rw [hmoved.length_eq, List.length_append,
              List.length_singleton]; omega) rfl htodo (by simp) (by simp) hmem
        refine ⟨lead', rest', ?_, hperm.trans ?_, hleads⟩
        · simp only [if_pos hlt, if_true]
          simp only [List.append_assoc, List.cons_append] at hexchange ⊢
          rw [hexchange, Option.bind_some]
          simpa using hrun
        · have hfront : (moved ++ todo).Perm (lead ++ (rest ++ todo)) := by
            simpa using hmoved.append_right todo
          refine (hfront.cons c).trans ?_
          have hmiddle : (lead ++ rest ++ c :: todo).Perm
              (c :: (lead ++ rest ++ todo)) := List.perm_middle
          simpa using hmiddle.symm
      · obtain ⟨moved, hexchange, -, hmoved⟩ :=
          exchange_front (before ++ lead) rest todo after c (i := k + j)
            (j := k + i)
            (by rw [List.length_append]; omega)
            (by rw [List.length_append]; omega)
        obtain ⟨lead', rest', hrun, hperm, hleads⟩ :=
          ih (lead ++ [c]) moved (i := i + 1) (j := j + 1) (x := x)
            (by rw [List.length_append, List.length_singleton]; omega)
            (by rw [hmoved.length_eq, List.length_append,
              List.length_singleton]; omega) rfl htodo (by simp)
            (by
              intro a ha
              rcases List.mem_append.mp ha with ha | ha
              · exact hlead a ha
              · rw [List.mem_singleton.mp ha, heq])
            (fun b hb => hrest b (hmoved.mem_iff.mp hb))
        refine ⟨lead', rest', ?_, hperm.trans ?_, hleads⟩
        · simp only [heq, lt_irrefl, if_false, if_true]
          simp only [List.append_assoc, List.cons_append] at hexchange ⊢
          rw [hexchange, Option.bind_some]
          simpa using hrun
        · have hbehind : (c :: (moved ++ todo)).Perm (rest ++ c :: todo) :=
            ((hmoved.append_right todo).cons c).trans List.perm_middle.symm
          simpa using hbehind.append_left lead
      · obtain ⟨lead', rest', hrun, hperm, hleads⟩ :=
          ih lead (rest ++ [c]) (i := i + 1) (j := j) (x := x) hj
            (by rw [List.length_append, List.length_singleton]; omega) rfl
            htodo hne hlead
            (by
              intro a ha
              rcases List.mem_append.mp ha with ha | ha
              · exact hrest a ha
              · rwa [List.mem_singleton.mp ha])
        refine ⟨lead', rest', ?_, ?_, hleads⟩
        · simp only [if_neg hgt.not_gt, if_neg hgt.ne']
          simpa using hrun
        · simpa using hperm

theorem countKeys_spec (x : κ) (before todo after : List α)
    {count i : Nat} (less equal : Nat)
    (hi : i = before.length) (hcount : count = todo.length)
    (hkey : ∀ a ∈ todo, key a = some (val a)) :
    countKeys key x count i less equal (before ++ (todo ++ after)) =
      some (less + todo.countP (val · < x),
        equal + todo.countP (val · = x)) := by
  induction todo generalizing before count i less equal with
  | nil => simp [hcount, countKeys]
  | cons c todo ih =>
      subst hcount
      have hread : (before ++ (c :: todo ++ after))[i]? = some c :=
        read_behind hi
      have hrest : countKeys key x todo.length (i + 1)
            (if val c < x then less + 1 else less)
            (if val c = x then equal + 1 else equal)
            ((before ++ [c]) ++ (todo ++ after)) = _ :=
        ih (before ++ [c]) _ _ (by rw [List.length_append, hi]; rfl) rfl
          (fun a ha => hkey a (List.mem_cons_of_mem c ha))
      rw [List.length_cons, countKeys, hread]
      simp only [hkey c List.mem_cons_self, Option.bind_eq_bind,
        Option.bind_some]
      rw [List.append_assoc] at hrest
      simp only [List.singleton_append] at hrest
      rw [List.cons_append, hrest, List.countP_cons, List.countP_cons]
      simp only [decide_eq_true_eq]
      congr 2 <;> split <;> omega

/-- Three parts are on their side of the pivot. -/
structure Placed (val : α → κ) (x : κ) (less equal greater : List α) :
    Prop where
  less : ∀ a ∈ less, val a < x
  equal : ∀ a ∈ equal, val a = x
  greater : ∀ a ∈ greater, x < val a

/-- What is still to be placed has the places it needs. -/
structure Waiting (val : α → κ) (x : κ) (low middle high : List α) :
    Prop where
  less : (low ++ (middle ++ high)).countP (val · < x) = low.length
  equal : (low ++ (middle ++ high)).countP (val · = x) = middle.length
  greater : (low ++ (middle ++ high)).countP (x < val ·) = high.length

theorem count_less_equal_greater (val : α → κ) (x : κ) (part : List α) :
    part.countP (val · < x) + part.countP (val · = x) +
      part.countP (x < val ·) = part.length := by
  induction part with
  | nil => rfl
  | cons a part ih =>
      simp only [List.countP_cons, decide_eq_true_eq, List.length_cons]
      rcases lt_trichotomy (val a) x with h | h | h
      · simp only [if_pos h, if_neg h.ne, if_neg h.not_gt]
        omega
      · simp only [h, lt_irrefl, if_true, if_false]
        omega
      · simp only [if_pos h, if_neg h.ne', if_neg h.not_gt]
        omega

/-- One key stands on exactly one side of the pivot. -/
theorem countP_cons_pivot (val : α → κ) (x : κ) (u : α) (part : List α) :
    (u :: part).countP (val · < x) =
        part.countP (val · < x) + (if val u < x then 1 else 0) ∧
      (u :: part).countP (val · = x) =
        part.countP (val · = x) + (if val u = x then 1 else 0) ∧
      (u :: part).countP (x < val ·) =
        part.countP (x < val ·) + (if x < val u then 1 else 0) := by
  simp [List.countP_cons]

namespace Waiting

variable {val : α → κ} {x : κ} {u : α} {u₁ u₂ u₃ : List α}

/-- An element that is in its place no longer waits. -/
theorem less_placed (hwaiting : Waiting val x (u :: u₁) u₂ u₃)
    (hu : val u < x) : Waiting val x u₁ u₂ u₃ := by
  obtain ⟨hless, hequal, hgreater⟩ :=
    countP_cons_pivot val x u (u₁ ++ (u₂ ++ u₃))
  rw [if_pos hu] at hless
  rw [if_neg hu.ne] at hequal
  rw [if_neg hu.not_gt] at hgreater
  have h₁ := hwaiting.less
  have h₂ := hwaiting.equal
  have h₃ := hwaiting.greater
  rw [List.cons_append] at h₁ h₂ h₃
  rw [List.length_cons] at h₁
  exact ⟨by omega, by omega, by omega⟩

/-- For an element equal to the pivot there is a place in the middle. -/
theorem equal_placed (hwaiting : Waiting val x (u :: u₁) u₂ u₃)
    (hu : val u = x) :
    ∃ w v₂, u₂ = w :: v₂ ∧ Waiting val x (w :: u₁) v₂ u₃ := by
  obtain ⟨hless, hequal, hgreater⟩ :=
    countP_cons_pivot val x u (u₁ ++ (u₂ ++ u₃))
  rw [if_neg hu.not_lt] at hless
  rw [if_pos hu] at hequal
  rw [if_neg hu.not_gt] at hgreater
  have h₁ := hwaiting.less
  have h₂ := hwaiting.equal
  have h₃ := hwaiting.greater
  rw [List.cons_append] at h₁ h₂ h₃
  rw [List.length_cons] at h₁
  cases u₂ with
  | nil =>
      rw [List.length_nil] at h₂
      omega
  | cons w v₂ =>
      have hperm : (w :: u₁ ++ (v₂ ++ u₃)).Perm (u₁ ++ (w :: v₂ ++ u₃)) :=
        List.perm_middle.symm
      rw [List.length_cons] at h₂
      refine ⟨w, v₂, rfl, ?_, ?_, ?_⟩
      · rw [hperm.countP_eq, List.length_cons]
        omega
      · rw [hperm.countP_eq]
        omega
      · rw [hperm.countP_eq]
        omega

/-- For an element above the pivot there is a place at the end. -/
theorem greater_placed (hwaiting : Waiting val x (u :: u₁) u₂ u₃)
    (hu : x < val u) :
    ∃ w v₃, u₃ = w :: v₃ ∧ Waiting val x (w :: u₁) u₂ v₃ := by
  obtain ⟨hless, hequal, hgreater⟩ :=
    countP_cons_pivot val x u (u₁ ++ (u₂ ++ u₃))
  rw [if_neg hu.not_gt] at hless
  rw [if_neg hu.ne'] at hequal
  rw [if_pos hu] at hgreater
  have h₁ := hwaiting.less
  have h₂ := hwaiting.equal
  have h₃ := hwaiting.greater
  rw [List.cons_append] at h₁ h₂ h₃
  rw [List.length_cons] at h₁
  cases u₃ with
  | nil =>
      rw [List.length_nil] at h₃
      omega
  | cons w v₃ =>
      have hperm : (w :: u₁ ++ (u₂ ++ v₃)).Perm (u₁ ++ (u₂ ++ w :: v₃)) := by
        rw [← List.append_assoc, ← List.append_assoc, List.cons_append]
        exact List.perm_middle.symm
      rw [List.length_cons] at h₃
      refine ⟨w, v₃, rfl, ?_, ?_, ?_⟩
      · rw [hperm.countP_eq, List.length_cons]
        omega
      · rw [hperm.countP_eq]
        omega
      · rw [hperm.countP_eq]
        omega

theorem middle_placed (hwaiting : Waiting val x [] (u :: u₂) u₃)
    (hu : val u = x) : Waiting val x [] u₂ u₃ := by
  obtain ⟨hless, hequal, hgreater⟩ := countP_cons_pivot val x u (u₂ ++ u₃)
  rw [if_neg hu.not_lt] at hless
  rw [if_pos hu] at hequal
  rw [if_neg hu.not_gt] at hgreater
  have h₁ := hwaiting.less
  have h₂ := hwaiting.equal
  have h₃ := hwaiting.greater
  simp only [List.nil_append, List.cons_append] at h₁ h₂ h₃
  rw [List.length_cons] at h₂
  rw [List.length_nil] at h₁
  exact ⟨by rw [List.nil_append, List.length_nil]; omega,
    by rw [List.nil_append]; omega, by rw [List.nil_append]; omega⟩

/-- When nothing below the pivot waits, what is not equal to it is above,
and there is a place for it at the end. -/
theorem middle_greater (hwaiting : Waiting val x [] (u :: u₂) u₃)
    (hu : val u ≠ x) : x < val u ∧
      ∃ w v₃, u₃ = w :: v₃ ∧ Waiting val x [] (w :: u₂) v₃ := by
  obtain ⟨hless, hequal, hgreater⟩ := countP_cons_pivot val x u (u₂ ++ u₃)
  have h₁ := hwaiting.less
  have h₂ := hwaiting.equal
  have h₃ := hwaiting.greater
  simp only [List.nil_append, List.cons_append] at h₁ h₂ h₃
  rw [List.length_nil] at h₁
  rw [List.length_cons] at h₂
  have hlow : ¬ val u < x := by
    intro hlt
    rw [if_pos hlt] at hless
    omega
  have hhigh : x < val u := lt_of_le_of_ne (not_lt.mp hlow) hu.symm
  rw [if_neg hlow] at hless
  rw [if_neg hu] at hequal
  rw [if_pos hhigh] at hgreater
  refine ⟨hhigh, ?_⟩
  cases u₃ with
  | nil =>
      rw [List.length_nil] at h₃
      omega
  | cons w v₃ =>
      have hperm : ([] ++ (w :: u₂ ++ v₃)).Perm (u₂ ++ w :: v₃) :=
        List.perm_middle.symm
      rw [List.length_cons] at h₃
      refine ⟨w, v₃, rfl, ?_, ?_, ?_⟩
      · rw [hperm.countP_eq, List.length_nil]
        omega
      · rw [hperm.countP_eq, List.length_cons]
        omega
      · rw [hperm.countP_eq]
        omega

end Waiting

theorem fillLow_spec (x : κ)
    (before less u₁ equal u₂ greater u₃ after : List α)
    (low high fuel : Nat) {i j k : Nat}
    (hi : i = before.length + less.length) (hlow : low = i + u₁.length)
    (hj : j = equal.length) (hhigh : high = low + equal.length + u₂.length)
    (hk : k = greater.length)
    (hfuel : u₁.length + u₂.length + u₃.length < fuel)
    (hkey : ∀ a ∈ u₁ ++ (u₂ ++ u₃), key a = some (val a))
    (hplaced : Placed val x less equal greater)
    (hwaiting : Waiting val x u₁ u₂ u₃) :
    ∃ less' equal' v₂ greater' v₃,
      fillLow key x low high fuel i j k (before ++ (less ++ (u₁ ++ (equal ++
          (u₂ ++ (greater ++ (u₃ ++ after))))))) =
        some (equal'.length, greater'.length, before ++ (less' ++ (equal' ++
          (v₂ ++ (greater' ++ (v₃ ++ after)))))) ∧
      (less' ++ (equal' ++ (v₂ ++ (greater' ++ v₃)))).Perm
        (less ++ (u₁ ++ (equal ++ (u₂ ++ (greater ++ u₃))))) ∧
      low = before.length + less'.length ∧
      high = low + equal'.length + v₂.length ∧
      Placed val x less' equal' greater' ∧ Waiting val x [] v₂ v₃ := by
  induction fuel generalizing less u₁ equal u₂ greater u₃ i j k with
  | zero => omega
  | succ fuel ih =>
      cases u₁ with
      | nil =>
          rw [List.length_nil] at hlow
          refine ⟨less, equal, u₂, greater, u₃, ?_, by simp, by omega,
            hhigh, hplaced, hwaiting⟩
          rw [fillLow, if_neg (by omega), hj, hk]
          simp
      | cons u u₁ =>
          have hu : key u = some (val u) := hkey u (by simp)
          have hread : (before ++ (less ++ (u :: u₁ ++ (equal ++ (u₂ ++
              (greater ++ (u₃ ++ after)))))))[i]? = some u := by
            have hbehind : (before ++ less ++ u :: (u₁ ++ (equal ++ (u₂ ++
                (greater ++ (u₃ ++ after))))))[i]? = some u :=
              read_behind (by rw [List.length_append, hi])
            simpa using hbehind
          rw [List.length_cons] at hlow hfuel
          rw [fillLow, if_pos (by omega), hread]
          simp only [hu, Option.bind_eq_bind, Option.bind_some]
          rcases lt_trichotomy (val u) x with hlt | heq | hgt
          · obtain ⟨less', equal', v₂, greater', v₃, hrun, hperm, hends⟩ :=
              ih (less ++ [u]) u₁ equal u₂ greater u₃ (i := i + 1)
                (by rw [List.length_append, List.length_singleton]; omega)
                (by omega) hj hhigh hk (by omega)
                (fun a ha => hkey a (List.mem_cons_of_mem u ha))
                ⟨by
                  intro a ha
                  rcases List.mem_append.mp ha with ha | ha
                  · exact hplaced.less a ha
                  · rwa [List.mem_singleton.mp ha], hplaced.equal,
                  hplaced.greater⟩ (hwaiting.less_placed hlt)
            refine ⟨less', equal', v₂, greater', v₃, ?_, ?_, hends⟩
            · rw [if_pos hlt]
              simpa using hrun
            · simpa using hperm
          · obtain ⟨w, v₂, rfl, hleft⟩ := hwaiting.equal_placed heq
            have hexchange : exchange (before ++ (less ++ (u :: u₁ ++ (equal ++
                (w :: v₂ ++ (greater ++ (u₃ ++ after))))))) i (low + j) =
                some (before ++ (less ++ (w :: u₁ ++ (equal ++ [u] ++ (v₂ ++
                  (greater ++ (u₃ ++ after))))))) := by
              simpa using exchange_between (before ++ less) (u₁ ++ equal)
                (v₂ ++ (greater ++ (u₃ ++ after))) u w (i := i) (j := low + j)
                (by rw [List.length_append, hi])
                (by rw [List.length_append]; omega)
            have hswap : (w :: (u₁ ++ (equal ++ (u :: (v₂ ++ (greater ++
                u₃)))))).Perm (u :: (u₁ ++ (equal ++ (w :: (v₂ ++ (greater ++
                u₃)))))) := by
              simpa using
                exchange_perm (u₁ ++ equal) (v₂ ++ (greater ++ u₃)) w u
            rw [List.length_cons] at hfuel hhigh
            obtain ⟨less', equal', v₂', greater', v₃, hrun, hperm, hends⟩ :=
              ih less (w :: u₁) (equal ++ [u]) v₂ greater u₃ (i := i)
                (j := j + 1) hi
                (by rw [List.length_cons]; omega)
                (by rw [List.length_append, List.length_singleton]; omega)
                (by rw [List.length_append, List.length_singleton]; omega) hk
                (by rw [List.length_cons]; omega)
                (fun a ha => hkey a (by
                  simp only [List.mem_append, List.mem_cons] at ha ⊢
                  tauto))
                ⟨hplaced.less, by
                  intro a ha
                  rcases List.mem_append.mp ha with ha | ha
                  · exact hplaced.equal a ha
                  · rwa [List.mem_singleton.mp ha], hplaced.greater⟩ hleft
            refine ⟨less', equal', v₂', greater', v₃, ?_, ?_, hends⟩
            · rw [if_neg heq.not_lt, if_pos heq, hexchange, Option.bind_some]
              exact hrun
            · refine hperm.trans ?_
              simpa using hswap.append_left less
          · obtain ⟨w, v₃, rfl, hleft⟩ := hwaiting.greater_placed hgt
            have hexchange : exchange (before ++ (less ++ (u :: u₁ ++ (equal ++
                (u₂ ++ (greater ++ (w :: v₃ ++ after))))))) i (high + k) =
                some (before ++ (less ++ (w :: u₁ ++ (equal ++ (u₂ ++
                  (greater ++ [u] ++ (v₃ ++ after))))))) := by
              simpa using exchange_between (before ++ less)
                (u₁ ++ (equal ++ (u₂ ++ greater))) (v₃ ++ after) u w (i := i)
                (j := high + k)
                (by rw [List.length_append, hi])
                (by simp only [List.length_append]; omega)
            have hswap : (w :: (u₁ ++ (equal ++ (u₂ ++ (greater ++
                (u :: v₃)))))).Perm (u :: (u₁ ++ (equal ++ (u₂ ++ (greater ++
                (w :: v₃)))))) := by
              simpa using
                exchange_perm (u₁ ++ (equal ++ (u₂ ++ greater))) v₃ w u
            rw [List.length_cons] at hfuel
            obtain ⟨less', equal', v₂, greater', v₃', hrun, hperm, hends⟩ :=
              ih less (w :: u₁) equal u₂ (greater ++ [u]) v₃ (i := i)
                (k := k + 1) hi
                (by rw [List.length_cons]; omega) hj hhigh
                (by rw [List.length_append, List.length_singleton]; omega)
                (by rw [List.length_cons]; omega)
                (fun a ha => hkey a (by
                  simp only [List.mem_append, List.mem_cons] at ha ⊢
                  tauto))
                ⟨hplaced.less, hplaced.equal, by
                  intro a ha
                  rcases List.mem_append.mp ha with ha | ha
                  · exact hplaced.greater a ha
                  · rwa [List.mem_singleton.mp ha]⟩ hleft
            refine ⟨less', equal', v₂, greater', v₃', ?_, ?_, hends⟩
            · rw [if_neg hgt.not_gt, if_neg hgt.ne', hexchange,
                Option.bind_some]
              exact hrun
            · refine hperm.trans ?_
              simpa using hswap.append_left less

theorem fillMiddle_spec (x : κ) (before equal u₂ greater u₃ after : List α)
    (low high fuel : Nat) {j k : Nat}
    (hlow : low = before.length) (hj : j = equal.length)
    (hhigh : high = low + equal.length + u₂.length)
    (hk : k = greater.length) (hfuel : u₂.length + u₃.length < fuel)
    (hkey : ∀ a ∈ u₂ ++ u₃, key a = some (val a))
    (hequal : ∀ a ∈ equal, val a = x) (hgreater : ∀ a ∈ greater, x < val a)
    (hwaiting : Waiting val x [] u₂ u₃) :
    ∃ equal' greater',
      fillMiddle key x low high fuel j k
          (before ++ (equal ++ (u₂ ++ (greater ++ (u₃ ++ after))))) =
        some (before ++ (equal' ++ (greater' ++ after))) ∧
      (equal' ++ greater').Perm
        (equal ++ (u₂ ++ (greater ++ u₃))) ∧
      equal'.length = equal.length + u₂.length ∧
      (∀ a ∈ equal', val a = x) ∧ ∀ a ∈ greater', x < val a := by
  induction fuel generalizing equal u₂ greater u₃ j k with
  | zero => omega
  | succ fuel ih =>
      cases u₂ with
      | nil =>
          refine ⟨equal, greater ++ u₃, ?_, by simp, rfl, hequal, ?_⟩
          · rw [List.length_nil] at hhigh
            rw [fillMiddle, if_neg (by omega)]
            simp
          · intro a ha
            have hcount := hwaiting.greater
            rw [List.nil_append, List.nil_append, List.countP_eq_length]
              at hcount
            rcases List.mem_append.mp ha with ha | ha
            · exact hgreater a ha
            · simpa using hcount a ha
      | cons u u₂ =>
          have hu : key u = some (val u) := hkey u (by simp)
          have hread : (before ++ (equal ++ (u :: u₂ ++ (greater ++ (u₃ ++
              after)))))[low + j]? = some u := by
            have hbehind : (before ++ equal ++ u :: (u₂ ++ (greater ++
                (u₃ ++ after))))[low + j]? = some u :=
              read_behind (by rw [List.length_append]; omega)
            simpa using hbehind
          rw [List.length_cons] at hhigh hfuel
          rw [fillMiddle, if_pos (by omega), hread]
          simp only [hu, Option.bind_eq_bind, Option.bind_some]
          by_cases heq : val u = x
          · obtain ⟨equal', greater', hrun, hperm, hlength, hends⟩ :=
              ih (equal ++ [u]) u₂ greater u₃ (j := j + 1)
                (by rw [List.length_append, List.length_singleton]; omega)
                (by rw [List.length_append, List.length_singleton]; omega)
                hk (by omega)
                (fun a ha => hkey a (List.mem_cons_of_mem u ha))
                (by
                  intro a ha
                  rcases List.mem_append.mp ha with ha | ha
                  · exact hequal a ha
                  · rwa [List.mem_singleton.mp ha])
                hgreater (hwaiting.middle_placed heq)
            refine ⟨equal', greater', ?_, ?_, ?_, hends⟩
            · rw [if_pos heq]
              simpa using hrun
            · simpa using hperm
            · rw [hlength, List.length_append, List.length_singleton,
                List.length_cons]
              omega
          · obtain ⟨hgt, w, v₃, rfl, hleft⟩ := hwaiting.middle_greater heq
            have hexchange : exchange (before ++ (equal ++ (u :: u₂ ++ (greater
                ++ (w :: v₃ ++ after))))) (low + j) (high + k) =
                some (before ++ (equal ++ (w :: u₂ ++ (greater ++ [u] ++ (v₃ ++
                  after))))) := by
              simpa using exchange_between (before ++ equal) (u₂ ++ greater)
                (v₃ ++ after) u w (i := low + j) (j := high + k)
                (by rw [List.length_append]; omega)
                (by rw [List.length_append]; omega)
            have hswap : (w :: (u₂ ++ (greater ++ (u :: v₃)))).Perm
                (u :: (u₂ ++ (greater ++ (w :: v₃)))) := by
              simpa using exchange_perm (u₂ ++ greater) v₃ w u
            rw [List.length_cons] at hfuel
            obtain ⟨equal', greater', hrun, hperm, hlength, hends⟩ :=
              ih equal (w :: u₂) (greater ++ [u]) v₃ (k := k + 1) hj
                (by rw [List.length_cons]; omega)
                (by rw [List.length_append, List.length_singleton]; omega)
                (by rw [List.length_cons]; omega)
                (fun a ha => hkey a (by
                  simp only [List.mem_append, List.mem_cons] at ha ⊢
                  tauto))
                hequal
                (by
                  intro a ha
                  rcases List.mem_append.mp ha with ha | ha
                  · exact hgreater a ha
                  · rwa [List.mem_singleton.mp ha]) hleft
            refine ⟨equal', greater', ?_, ?_, hlength, hends⟩
            · rw [if_neg heq, hexchange, Option.bind_some]
              exact hrun
            · refine hperm.trans ?_
              simpa using hswap.append_left equal

theorem exists_cut {part : List α} {n : Nat} (hn : n ≤ part.length) :
    ∃ front back, part = front ++ back ∧ front.length = n :=
  ⟨part.take n, part.drop n, (List.take_append_drop n part).symm,
    List.length_take_of_le hn⟩

/-- Counted and filled, a part is partitioned. -/
theorem partition_spec (x : κ) (before part after : List α) {i : Nat}
    (hi : i = before.length) (hkey : ∀ a ∈ part, key a = some (val a)) :
    ∃ less equal greater j k array,
      countKeys key x part.length i 0 0 (before ++ (part ++ after)) =
        some (less.length, equal.length) ∧
      fillLow key x (i + less.length) (i + less.length + equal.length)
          (part.length + 1) i 0 0 (before ++ (part ++ after)) =
        some (j, k, array) ∧
      fillMiddle key x (i + less.length) (i + less.length + equal.length)
          (part.length + 1) j k array =
        some (before ++ (less ++ (equal ++ (greater ++ after)))) ∧
      (less ++ (equal ++ greater)).Perm part ∧
      Placed val x less equal greater := by
  have htotal := count_less_equal_greater val x part
  have hcount := countKeys_spec key x before part after 0 0 hi rfl hkey
  -- the part is cut where the counts say the three kinds will stand
  obtain ⟨u₁, rest, hpart, h₁⟩ := exists_cut
    (by omega : part.countP (val · < x) ≤ part.length)
  have hrest_length := congrArg List.length hpart
  rw [List.length_append] at hrest_length
  obtain ⟨u₂, u₃, hrest, h₂⟩ := exists_cut
    (by omega : part.countP (val · = x) ≤ rest.length)
  have hcut : part = u₁ ++ (u₂ ++ u₃) := by rw [hpart, hrest]
  have hlength := congrArg List.length hcut
  simp only [List.length_append] at hlength
  have hwaiting : Waiting val x u₁ u₂ u₃ :=
    ⟨by rw [← hcut, h₁], by rw [← hcut, h₂], by rw [← hcut]; omega⟩
  obtain ⟨less, equal, v₂, greater, v₃, hlow, hperm, hless, hequal, hplaced,
      hmiddle⟩ := fillLow_spec key x before [] u₁ [] u₂ [] u₃ after
    (i + u₁.length) (i + u₁.length + u₂.length) (part.length + 1) (i := i)
    (j := 0) (k := 0)
    (by simp [hi]) rfl rfl (by simp) rfl (by omega)
    (by rw [← hcut]; exact hkey) ⟨by simp, by simp, by simp⟩ hwaiting
  have hlower : less.length = u₁.length := by omega
  have hsub : ∀ a ∈ v₂ ++ v₃, key a = some (val a) := by
    intro a ha
    refine hkey a ?_
    rw [hcut]
    have hmem := hperm.mem_iff (a := a)
    simp only [List.nil_append, List.mem_append] at hmem ha ⊢
    tauto
  have hfilled := hperm.length_eq
  simp only [List.nil_append, List.length_append] at hfilled
  obtain ⟨equal', greater', hfill, hperm', hequal', hkinds⟩ :=
    fillMiddle_spec key x (before ++ less) equal v₂ greater v₃ after
      (i + u₁.length) (i + u₁.length + u₂.length) (part.length + 1)
      (by rw [List.length_append]; omega) rfl (by omega) rfl (by omega) hsub
      hplaced.equal hplaced.greater hmiddle
  have hmiddle_length : equal'.length = u₂.length := by omega
  refine ⟨less, equal', greater', equal.length, greater.length,
    before ++ (less ++ (equal ++ (v₂ ++ (greater ++ (v₃ ++ after))))),
    ?_, ?_, ?_, ?_, hplaced.less, hkinds.1, hkinds.2⟩
  · rw [hcount, hlower, hmiddle_length, h₁, h₂]
    simp
  · rw [hlower, hmiddle_length]
    simpa [hcut] using hlow
  · rw [hlower, hmiddle_length]
    simpa using hfill
  · rw [hcut]
    refine (hperm'.append_left less).trans ?_
    simpa using hperm

end Key

end ThreeWay

end MetaOS
