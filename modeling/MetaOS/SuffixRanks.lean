/-
Suffixes of a string, ranked by their first letters.  The rank of a group of
suffixes that are not told apart yet is the last place the group has in the
sorted order.  Ranks by the first `h` letters tell, for two suffixes that
agree on `h` letters, how they compare on the next `h`; a group is broken up
by giving its least suffixes a rank of their own.
-/
import Mathlib.Data.Finset.Card
import Mathlib.Order.Interval.Finset.Nat
import Mathlib.Tactic

namespace MetaOS

namespace SuffixRanks

variable {α : Type*} {text : List α} {h s t : Nat}

/-- Two suffixes have `h` letters, and they are the same. -/
structure Agree (text : List α) (h s t : Nat) : Prop where
  left : s + h ≤ text.length
  right : t + h ≤ text.length
  front : (text.drop s).take h = (text.drop t).take h

theorem Agree.symm (hagree : Agree text h s t) : Agree text h t s :=
  ⟨hagree.right, hagree.left, hagree.front.symm⟩

theorem take_append_drop_suffix (text : List α) (s h : Nat) :
    (text.drop s).take h ++ text.drop (s + h) = text.drop s := by
  rw [← List.drop_drop, List.take_append_drop]

theorem Agree.double (hagree : Agree text h s t)
    (hnext : Agree text h (s + h) (t + h)) : Agree text (h + h) s t where
  left := by
    have hleft := hnext.left
    omega
  right := by
    have hright := hnext.right
    omega
  front := by
    rw [List.take_add, List.take_add, List.drop_drop, List.drop_drop,
      hagree.front, hnext.front]

theorem Agree.lt_of_drop_lt [LT α] (hagree : Agree text h s t)
    (hlt : text.drop (s + h) < text.drop (t + h)) :
    text.drop s < text.drop t := by
  rw [← take_append_drop_suffix text s h, ← take_append_drop_suffix text t h,
    hagree.front]
  exact List.append_left_lt hlt

/-- How many suffixes have a rank below `l`. -/
def placesBelow (text : List α) (rank : Nat → Nat) (l : Nat) : Nat :=
  ((Finset.range (text.length + 1)).filter (rank · < l)).card

theorem placesBelow_mono (text : List α) (rank : Nat → Nat) {l m : Nat}
    (hlm : l ≤ m) : placesBelow text rank l ≤ placesBelow text rank m := by
  refine Finset.card_le_card fun t ht => ?_
  rw [Finset.mem_filter] at ht ⊢
  exact ⟨ht.1, by omega⟩

/-- `rank` orders the suffixes, up to those that agree on `h` letters. -/
structure Ranks [LT α] (text : List α) (h : Nat) (rank : Nat → Nat) :
    Prop where
  below : ∀ s ≤ text.length, ∀ t ≤ text.length, rank s < rank t →
    text.drop s < text.drop t
  tied : ∀ s ≤ text.length, ∀ t ≤ text.length, s ≠ t → rank s = rank t →
    Agree text h s t
  last : ∀ s ≤ text.length, placesBelow text rank (rank s + 1) = rank s + 1

section Ranks

variable [LT α] {rank : Nat → Nat}

/-- Suffixes that agree so far are compared by the ranks behind. -/
theorem Ranks.lt_of_key (hranks : Ranks text h rank)
    (hagree : Agree text h s t) (hkey : rank (s + h) < rank (t + h)) :
    text.drop s < text.drop t :=
  hagree.lt_of_drop_lt (hranks.below _ hagree.left _ hagree.right hkey)

theorem Ranks.agree_of_key (hranks : Ranks text h rank) (hst : s ≠ t)
    (hagree : Agree text h s t) (hkey : rank (s + h) = rank (t + h)) :
    Agree text (h + h) s t :=
  hagree.double
    (hranks.tied _ hagree.left _ hagree.right (by omega) hkey)

/-- Ranks below a group lie below its first place. -/
theorem Ranks.lt_placesBelow (hranks : Ranks text h rank) {l : Nat}
    (ht : t ≤ text.length) (hlt : rank t < l) :
    rank t < placesBelow text rank l := by
  have hlast := hranks.last t ht
  have hmono := placesBelow_mono text rank (l := rank t + 1) (m := l) hlt
  omega

/-- The places of a group with rank `l` are those from `placesBelow l` on. -/
theorem Ranks.group_card (hranks : Ranks text h rank) (hs : s ≤ text.length) :
    placesBelow text rank (rank s) +
      ((Finset.range (text.length + 1)).filter (rank · = rank s)).card =
        rank s + 1 := by
  rw [← hranks.last s hs, placesBelow, placesBelow,
    ← Finset.card_union_of_disjoint]
  · congr 1
    ext t
    rw [Finset.mem_union, Finset.mem_filter, Finset.mem_filter,
      Finset.mem_filter, ← and_or_left, Nat.lt_succ_iff_lt_or_eq]
  · refine Finset.disjoint_left.mpr fun t ht ht' => ?_
    rw [Finset.mem_filter] at ht ht'
    omega

section Renumber

variable {l m : Nat} {least : Finset Nat}

/-- The suffixes in `least` get the rank `m`. -/
def renumber (least : Finset Nat) (m : Nat) (rank : Nat → Nat) (s : Nat) :
    Nat :=
  if s ∈ least then m else rank s

/-- The new rank of the least suffixes of a group is their last place, and
the others keep theirs. -/
structure Renumbers (text : List α) (rank : Nat → Nat) (least : Finset Nat)
    (l m : Nat) : Prop where
  nonempty : least.Nonempty
  group : ∀ s ∈ least, s ≤ text.length ∧ rank s = l
  first : ∀ s ∈ least, ∀ t ≤ text.length, t ∉ least → rank t = l →
    text.drop s < text.drop t
  place : m + 1 = placesBelow text rank l + least.card

theorem Renumbers.first_le (hnew : Renumbers text rank least l m) :
    placesBelow text rank l ≤ m := by
  have hplace := hnew.place
  have hcard := hnew.nonempty.card_pos
  omega

theorem Renumbers.subset (hnew : Renumbers text rank least l m) :
    least ⊆ (Finset.range (text.length + 1)).filter (rank · = l) := by
  intro s hs
  obtain ⟨hle, hrank⟩ := hnew.group s hs
  rw [Finset.mem_filter, Finset.mem_range]
  exact ⟨by omega, hrank⟩

theorem Renumbers.le (hranks : Ranks text h rank)
    (hnew : Renumbers text rank least l m) : m ≤ l := by
  obtain ⟨s, hs⟩ := hnew.nonempty
  obtain ⟨hle, hrank⟩ := hnew.group s hs
  have hgroup := hranks.group_card hle
  have hcard := Finset.card_le_card hnew.subset
  have hplace := hnew.place
  rw [hrank] at hgroup
  omega

/-- A suffix of the group that is left over keeps the rank above. -/
theorem Renumbers.lt_of_left (hranks : Ranks text h rank)
    (hnew : Renumbers text rank least l m) (ht : t ≤ text.length)
    (hrank : rank t = l) (hleft : t ∉ least) : m < l := by
  have hgroup := hranks.group_card ht
  have hplace := hnew.place
  have hssubset : least ⊂
      (Finset.range (text.length + 1)).filter (rank · = l) := by
    refine Finset.ssubset_iff_subset_ne.mpr ⟨hnew.subset, ?_⟩
    intro heq
    refine hleft ?_
    rw [heq, Finset.mem_filter, Finset.mem_range]
    exact ⟨by omega, hrank⟩
  have hcard := Finset.card_lt_card hssubset
  rw [hrank] at hgroup
  omega

/-- The ranks outside the group are not between its old and new ones. -/
theorem Renumbers.le_iff (hranks : Ranks text h rank)
    (hnew : Renumbers text rank least l m) (ht : t ≤ text.length)
    (hleft : t ∉ least) : (rank t ≤ m ↔ rank t < l) ∧
      (m ≤ rank t ↔ l ≤ rank t) := by
  have hfirst := hnew.first_le
  have hle := Renumbers.le hranks hnew
  rcases lt_trichotomy (rank t) l with hlt | heq | hgt
  · have hplace := hranks.lt_placesBelow ht hlt
    omega
  · have hlt := hnew.lt_of_left hranks ht heq hleft
    omega
  · omega

theorem renumber_of_mem (hs : s ∈ least) : renumber least m rank s = m :=
  if_pos hs

theorem renumber_of_not_mem (hs : s ∉ least) :
    renumber least m rank s = rank s :=
  if_neg hs

theorem Renumbers.placesBelow_new (hranks : Ranks text h rank)
    (hnew : Renumbers text rank least l m) :
    placesBelow text (renumber least m rank) (m + 1) = m + 1 := by
  have hunion : (Finset.range (text.length + 1)).filter
        (renumber least m rank · < m + 1) =
      (Finset.range (text.length + 1)).filter (rank · < l) ∪ least := by
    ext t
    rw [Finset.mem_union, Finset.mem_filter, Finset.mem_filter,
      Nat.lt_succ_iff]
    by_cases htleast : t ∈ least
    · have hin := Finset.mem_range.mpr
        (Nat.lt_succ_of_le (hnew.group t htleast).1)
      simp [renumber_of_mem htleast, htleast, hin]
    · simp only [renumber_of_not_mem htleast, htleast, or_false]
      refine and_congr_right fun ht => ?_
      rw [Finset.mem_range, Nat.lt_succ_iff] at ht
      exact (hnew.le_iff hranks ht htleast).1
  have hdisjoint : Disjoint
      ((Finset.range (text.length + 1)).filter (rank · < l)) least := by
    refine Finset.disjoint_left.mpr fun t ht ht' => ?_
    rw [Finset.mem_filter, (hnew.group t ht').2] at ht
    exact lt_irrefl l ht.2
  rw [placesBelow, hunion, Finset.card_union_of_disjoint hdisjoint,
    hnew.place, placesBelow]

theorem Renumbers.placesBelow_old (hranks : Ranks text h rank)
    (hnew : Renumbers text rank least l m) (hs : s ≤ text.length)
    (hleft : s ∉ least) :
    placesBelow text (renumber least m rank) (rank s + 1) = rank s + 1 := by
  have hiff := hnew.le_iff hranks hs hleft
  have hsame : (Finset.range (text.length + 1)).filter
        (renumber least m rank · < rank s + 1) =
      (Finset.range (text.length + 1)).filter (rank · < rank s + 1) := by
    refine Finset.filter_congr fun t _ => ?_
    by_cases htleast : t ∈ least
    · rw [renumber_of_mem htleast, (hnew.group t htleast).2,
        Nat.lt_succ_iff, Nat.lt_succ_iff]
      exact hiff.2
    · rw [renumber_of_not_mem htleast]
  rw [placesBelow, hsame]
  exact hranks.last s hs

/-- Renumbering the least suffixes of a group keeps the ranks right. -/
theorem Ranks.renumber (hranks : Ranks text h rank)
    (hnew : Renumbers text rank least l m) :
    Ranks text h (renumber least m rank) := by
  have hle := hnew.le hranks
  refine ⟨?_, ?_, ?_⟩
  · intro s hs t ht hlt
    simp only [SuffixRanks.renumber] at hlt
    split at hlt <;> split at hlt
    · omega
    · rename_i hsleast htleast
      obtain ⟨hsle, hsrank⟩ := hnew.group s hsleast
      have hiff := hnew.le_iff hranks ht htleast
      rcases Nat.lt_or_ge l (rank t) with hgt | hge
      · exact hranks.below s hs t ht (by omega)
      · exact hnew.first s hsleast t ht htleast (by omega)
    · rename_i hsleast htleast
      obtain ⟨htle, htrank⟩ := hnew.group t htleast
      have hiff := hnew.le_iff hranks hs hsleast
      exact hranks.below s hs t ht (by omega)
    · exact hranks.below s hs t ht hlt
  · intro s hs t ht hst heq
    simp only [SuffixRanks.renumber] at heq
    split at heq <;> split at heq
    · rename_i hsleast htleast
      refine hranks.tied s hs t ht hst ?_
      rw [(hnew.group s hsleast).2, (hnew.group t htleast).2]
    · rename_i hsleast htleast
      have hiff := hnew.le_iff hranks ht htleast
      omega
    · rename_i hsleast htleast
      have hiff := hnew.le_iff hranks hs hsleast
      omega
    · exact hranks.tied s hs t ht hst heq
  · intro s hs
    by_cases hsleast : s ∈ least
    · rw [renumber_of_mem hsleast]
      exact hnew.placesBelow_new hranks
    · rw [renumber_of_not_mem hsleast]
      exact hnew.placesBelow_old hranks hs hsleast

end Renumber

/-- The suffixes in `part` are the least of a group that are left; `start` is
their first place. -/
structure Part (text : List α) (h : Nat) (rank : Nat → Nat) (l start : Nat)
    (part : List Nat) : Prop where
  nodup : part.Nodup
  group : ∀ s ∈ part, s ≤ text.length ∧ rank s = l
  room : ∀ s ∈ part, s + h ≤ text.length
  first : ∀ s ∈ part, ∀ t ≤ text.length, t ∉ part → rank t = l →
    text.drop s < text.drop t
  start : placesBelow text rank l = start

namespace Part

variable {l start : Nat} {part front back : List Nat}

theorem of_perm (hpart : Part text h rank l start part)
    (hperm : front.Perm part) : Part text h rank l start front where
  nodup := hperm.nodup_iff.mpr hpart.nodup
  group s hs := hpart.group s (hperm.mem_iff.mp hs)
  room s hs := hpart.room s (hperm.mem_iff.mp hs)
  first s hs t ht hleft :=
    hpart.first s (hperm.mem_iff.mp hs) t ht
      (fun h => hleft (hperm.mem_iff.mpr h))
  start := hpart.start

theorem agree (hpart : Part text h rank l start part)
    (hranks : Ranks text h rank) (hs : s ∈ part) (ht : t ∈ part)
      (hst : s ≠ t) :
    Agree text h s t := by
  refine hranks.tied s (hpart.group s hs).1 t (hpart.group t ht).1 hst ?_
  rw [(hpart.group s hs).2, (hpart.group t ht).2]

theorem lt_of_key (hpart : Part text h rank l start part)
    (hranks : Ranks text h rank) (hs : s ∈ part) (ht : t ∈ part)
    (hkey : rank (s + h) < rank (t + h)) : text.drop s < text.drop t := by
  refine hranks.lt_of_key (hpart.agree hranks hs ht ?_) hkey
  rintro rfl
  exact lt_irrefl _ hkey

theorem agree_of_key (hpart : Part text h rank l start part)
    (hranks : Ranks text h rank) (hs : s ∈ part) (ht : t ∈ part) (hst : s ≠ t)
    (hkey : rank (s + h) = rank (t + h)) : Agree text (h + h) s t :=
  hranks.agree_of_key hst (hpart.agree hranks hs ht hst) hkey

/-- The part fits below the last place of the group. -/
theorem length_le (hpart : Part text h rank l start part)
    (hranks : Ranks text h rank) (hne : part ≠ []) :
    start + part.length ≤ l + 1 := by
  obtain ⟨s, hs⟩ := List.exists_mem_of_ne_nil part hne
  obtain ⟨hle, hrank⟩ := hpart.group s hs
  have hgroup := hranks.group_card hle
  have hsubset : part.toFinset ⊆
      (Finset.range (text.length + 1)).filter (rank · = l) := by
    intro t ht
    obtain ⟨htle, htrank⟩ := hpart.group t (List.mem_toFinset.mp ht)
    rw [Finset.mem_filter, Finset.mem_range]
    exact ⟨by omega, htrank⟩
  have hcard := Finset.card_le_card hsubset
  rw [List.toFinset_card_of_nodup hpart.nodup] at hcard
  rw [hrank, hpart.start] at hgroup
  omega

/-- The front of a part is a part when it is less than the rest. -/
theorem of_front (hpart : Part text h rank l start (front ++ back))
    (hless : ∀ s ∈ front, ∀ t ∈ back, text.drop s < text.drop t) :
    Part text h rank l start front where
  nodup := (List.nodup_append.mp hpart.nodup).1
  group s hs := hpart.group s (List.mem_append_left back hs)
  room s hs := hpart.room s (List.mem_append_left back hs)
  first s hs t ht hleft hrank := by
    by_cases hback : t ∈ back
    · exact hless s hs t hback
    · refine hpart.first s (List.mem_append_left back hs) t ht ?_ hrank
      rw [List.mem_append]
      tauto
  start := hpart.start

theorem disjoint (hpart : Part text h rank l start (front ++ back))
    (hs : s ∈ front) : s ∉ back :=
  fun hback => (List.nodup_append.mp hpart.nodup).2.2 s hs s hback rfl

/-- The least suffixes of a part can be renumbered. -/
theorem renumbers (hpart : Part text h rank l start part) (hne : part ≠ []) :
    Renumbers text rank part.toFinset l (start + part.length - 1) where
  nonempty := List.toFinset_nonempty_iff part |>.mpr hne
  group s hs := hpart.group s (List.mem_toFinset.mp hs)
  first s hs t ht hleft := hpart.first s (List.mem_toFinset.mp hs) t ht
    (fun h => hleft (List.mem_toFinset.mpr h))
  place := by
    have hpos := List.length_pos_iff.mpr hne
    rw [List.toFinset_card_of_nodup hpart.nodup, hpart.start]
    omega

/-- When the front of a part has got its places, the rest of it is what is
left of the group. -/
theorem rest {rank' : Nat → Nat}
    (hpart : Part text h rank l start (front ++ back))
    (hranks : Ranks text h rank) (hne : back ≠ [])
    (houtside : ∀ s, s ∉ front → rank' s = rank s)
    (hplaces : ∀ s ∈ front, rank' s < start + front.length) :
    Part text h rank' l (start + front.length) back := by
  have hlength := hpart.length_le hranks (by simp [hne])
  have hpos := List.length_pos_iff.mpr hne
  rw [List.length_append] at hlength
  have hmem : ∀ s ∈ back, s ∈ front ++ back :=
    fun s hs => List.mem_append_right front hs
  have hback : ∀ s ∈ back, s ∉ front :=
    fun s hs hfront => hpart.disjoint hfront hs
  refine ⟨(List.nodup_append.mp hpart.nodup).2.1, ?_, ?_, ?_, ?_⟩
  · intro s hs
    rw [houtside s (hback s hs)]
    exact hpart.group s (hmem s hs)
  · exact fun s hs => hpart.room s (hmem s hs)
  · intro s hs t ht hleft hrank
    have hfront : t ∉ front := by
      intro hfront
      have hplace := hplaces t hfront
      omega
    rw [houtside t hfront] at hrank
    refine hpart.first s (hmem s hs) t ht ?_ hrank
    rw [List.mem_append]
    tauto
  · have hunion : (Finset.range (text.length + 1)).filter (rank' · < l) =
        (Finset.range (text.length + 1)).filter (rank · < l) ∪
          front.toFinset := by
      ext t
      rw [Finset.mem_union, Finset.mem_filter, Finset.mem_filter,
        List.mem_toFinset]
      by_cases hfront : t ∈ front
      · have hplace := hplaces t hfront
        have hle := (hpart.group t (List.mem_append_left back hfront)).1
        have hin : t ∈ Finset.range (text.length + 1) :=
          Finset.mem_range.mpr (by omega)
        simp only [hfront, hin, true_and, or_true, iff_true]
        omega
      · rw [houtside t hfront]
        tauto
    have hdisjoint : Disjoint
        ((Finset.range (text.length + 1)).filter (rank · < l))
        front.toFinset := by
      refine Finset.disjoint_left.mpr fun t ht hfront => ?_
      rw [Finset.mem_filter] at ht
      have hgroup := hpart.group t
        (List.mem_append_left back (List.mem_toFinset.mp hfront))
      omega
    rw [placesBelow, hunion, Finset.card_union_of_disjoint hdisjoint,
      List.toFinset_card_of_nodup (List.nodup_append.mp hpart.nodup).1,
      ← hpart.start, placesBelow]

end Part

end Ranks

end SuffixRanks

end MetaOS
