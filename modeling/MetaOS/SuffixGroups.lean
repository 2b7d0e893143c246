/-
The array of a suffix sort.  A group of suffixes that are not told apart yet
stands in consecutive entries; a suffix that has its final place need not
stand there any more, and a run of such places begins with its negated
length.  Splitting the least part of a group keeps the ranks right, and the
results of splitting consecutive parts can be joined.
-/
import MetaOS.SuffixRanks

namespace MetaOS

namespace SuffixRanks

/-- The entries from place `start` on, for the suffixes in `order`: runs of
final places and groups, whose suffixes have `h` letters. -/
inductive Blocks (size h : Nat) (rank : Nat → Nat) :
    (start : Nat) → List Int → List Nat → Prop
  | nil (start : Nat) : Blocks size h rank start [] []
  | run {start : Nat} {sorted order : List Nat} {stale rest : List Int}
      (length : sorted.length = stale.length + 1)
      (final : sorted.map rank = List.range' start sorted.length)
      (later : Blocks size h rank (start + sorted.length) rest order) :
      Blocks size h rank start (-(sorted.length : Int) :: (stale ++ rest))
        (sorted ++ order)
  | group {start : Nat} {group order : List Nat} {rest : List Int}
      (nonempty : group ≠ [])
      (last : ∀ s ∈ group, rank s + 1 = start + group.length)
      (room : ∀ s ∈ group, s + h ≤ size)
      (later : Blocks size h rank (start + group.length) rest order) :
      Blocks size h rank start (group.map Int.ofNat ++ rest) (group ++ order)

namespace Blocks

variable {size h start : Nat} {rank rank' : Nat → Nat}
  {entries entries' : List Int} {order order' : List Nat}

theorem length (hblocks : Blocks size h rank start entries order) :
    entries.length = order.length := by
  induction hblocks with
  | nil => rfl
  | run length _ _ ih =>
      rw [List.length_cons, List.length_append, List.length_append, ih, length]
      omega
  | group _ _ _ _ ih =>
      rw [List.length_append, List.length_append, List.length_map, ih]

theorem append (hblocks : Blocks size h rank start entries order)
    (hnext : Blocks size h rank (start + order.length) entries' order') :
    Blocks size h rank start (entries ++ entries') (order ++ order') := by
  induction hblocks with
  | nil => exact hnext
  | run length final _ ih =>
      rw [List.length_append, ← Nat.add_assoc] at hnext
      rw [List.cons_append, List.append_assoc, List.append_assoc]
      exact run length final (ih hnext)
  | group nonempty last room _ ih =>
      rw [List.length_append, ← Nat.add_assoc] at hnext
      rw [List.append_assoc, List.append_assoc]
      exact group nonempty last room (ih hnext)

theorem congr (hblocks : Blocks size h rank start entries order)
    (hrank : ∀ s ∈ order, rank' s = rank s) :
    Blocks size h rank' start entries order := by
  induction hblocks with
  | nil => exact nil _
  | run length final _ ih =>
      refine run length ?_
        (ih fun s hs => hrank s (List.mem_append_right _ hs))
      rw [← final]
      exact List.map_congr_left fun s hs =>
        hrank s (List.mem_append_left _ hs)
  | group nonempty last room _ ih =>
      refine group nonempty ?_ room
        (ih fun s hs => hrank s (List.mem_append_right _ hs))
      intro s hs
      rw [hrank s (List.mem_append_left _ hs)]
      exact last s hs

/-- The ranks are places of the blocks. -/
theorem places (hblocks : Blocks size h rank start entries order) :
    ∀ s ∈ order, start ≤ rank s ∧ rank s < start + order.length := by
  induction hblocks with
  | nil => simp
  | @run start sorted order stale rest length final _ ih =>
      intro s hs
      rw [List.length_append]
      rcases List.mem_append.mp hs with hs | hs
      · have hmem : rank s ∈ List.range' start sorted.length := by
          rw [← final]
          exact List.mem_map_of_mem hs
        rw [List.mem_range'_1] at hmem
        omega
      · have hplace := ih s hs
        omega
  | @group start group order rest nonempty last _ _ ih =>
      intro s hs
      rw [List.length_append]
      rcases List.mem_append.mp hs with hs | hs
      · have hlast := last s hs
        have hpos := List.length_pos_iff.mpr nonempty
        omega
      · have hplace := ih s hs
        omega

/-- One suffix in its final place. -/
theorem single {s : Nat} (hs : rank s = start) :
    Blocks size h rank start [-1] [s] := by
  have hrun : Blocks size h rank start
      (-(([s].length : Nat) : Int) :: ([] ++ []))
      ([s] ++ []) :=
    run (by simp) (by simp [hs]) (nil _)
  exact hrun

end Blocks

section Splits

variable {α : Type*} [LT α] {text : List α} {h l start : Nat}
  {rank rank₁ rank₂ : Nat → Nat} {part front back : List Nat}

/-- A part has been split: its suffixes have the ranks from `start` on, told
apart by twice as many letters; `entries` is what the array now has. -/
structure Splits (text : List α) (h : Nat) (rank : Nat → Nat) (start : Nat)
    (part : List Nat) (rank' : Nat → Nat) (entries : List Int)
    (order : List Nat) : Prop where
  ranks : Ranks text h rank'
  outside : ∀ s, s ∉ part → rank' s = rank s
  perm : order.Perm part
  blocks : Blocks text.length (h + h) rank' start entries order
  tied : ∀ s ∈ part, ∀ t ≤ text.length, s ≠ t → rank' s = rank' t →
    Agree text (h + h) s t

namespace Splits

theorem empty (hranks : Ranks text h rank) :
    Splits text h rank start [] rank [] [] where
  ranks := hranks
  outside _ _ := rfl
  perm := List.Perm.nil
  blocks := Blocks.nil start
  tied := by simp

theorem places {entries : List Int} {order : List Nat}
    (hsplits : Splits text h rank start part rank₁ entries order) :
    ∀ s ∈ part, start ≤ rank₁ s ∧ rank₁ s < start + part.length := by
  intro s hs
  rw [← hsplits.perm.length_eq]
  exact hsplits.blocks.places s (hsplits.perm.mem_iff.mpr hs)

theorem entries_length {entries : List Int} {order : List Nat}
    (hsplits : Splits text h rank start part rank₁ entries order) :
    entries.length = part.length :=
  hsplits.blocks.length.trans hsplits.perm.length_eq

theorem of_perm {entries : List Int} {order : List Nat}
    (hsplits : Splits text h rank start front rank₁ entries order)
    (hperm : front.Perm part) :
    Splits text h rank start part rank₁ entries order where
  ranks := hsplits.ranks
  outside s hs := hsplits.outside s (fun h => hs (hperm.mem_iff.mp h))
  perm := hsplits.perm.trans hperm
  blocks := hsplits.blocks
  tied s hs := hsplits.tied s (hperm.mem_iff.mpr hs)

/-- What is left when the front of a part has been split. -/
theorem rest {entries : List Int} {order : List Nat}
    (hsplits : Splits text h rank start front rank₁ entries order)
    (hpart : Part text h rank l start (front ++ back))
    (hranks : Ranks text h rank) (hne : back ≠ []) :
    Part text h rank₁ l (start + front.length) back :=
  hpart.rest hranks hne hsplits.outside
    (fun s hs => (hsplits.places s hs).2)

/-- Splitting the front and then the rest splits the part. -/
theorem append {entries entries' : List Int} {order order' : List Nat}
    (hpart : Part text h rank l start (front ++ back))
    (hfront : Splits text h rank start front rank₁ entries order)
    (hback : Splits text h rank₁ (start + front.length) back rank₂ entries'
      order') :
    Splits text h rank start (front ++ back) rank₂ (entries ++ entries')
      (order ++ order') where
  ranks := hback.ranks
  outside s hs := by
    rw [List.mem_append, not_or] at hs
    rw [hback.outside s hs.2, hfront.outside s hs.1]
  perm := hfront.perm.append hback.perm
  blocks := by
    have hlength := hfront.perm.length_eq
    refine (hfront.blocks.congr fun s hs => ?_).append ?_
    · exact hback.outside s (hpart.disjoint (hfront.perm.mem_iff.mp hs))
    · rw [hlength]
      exact hback.blocks
  tied := by
    intro s hs t ht hst heq
    rcases List.mem_append.mp hs with hs | hs
    · have hplace := hfront.places s hs
      rw [hback.outside s (hpart.disjoint hs)] at heq
      have hfar : t ∉ back := by
        intro hmem
        have hplace' := hback.places t hmem
        omega
      rw [hback.outside t hfar] at heq
      exact hfront.tied s hs t ht hst heq
    · exact hback.tied s hs t ht hst heq

/-- The entries of a group that got one rank: a group of one is done. -/
def groupEntries (group : List Nat) : List Int :=
  if group.length = 1 then [-1] else group.map Int.ofNat

theorem exists_ne_of_nodup {part : List Nat} (hnodup : part.Nodup)
    (hlength : 2 ≤ part.length) (s : Nat) : ∃ t ∈ part, t ≠ s := by
  cases part with
  | nil => simp at hlength
  | cons a part =>
      cases part with
      | nil => simp at hlength
      | cons b part =>
          have hab : a ≠ b := by
            rintro rfl
            simp at hnodup
          by_cases has : a = s
          · exact ⟨b, by simp, fun hbs => hab (has.trans hbs.symm)⟩
          · exact ⟨a, by simp, has⟩

theorem groupEntries_length (group : List Nat) :
    (groupEntries group).length = group.length := by
  rw [groupEntries]
  split
  · rename_i hone
    exact hone.symm
  · exact List.length_map _

/-- Giving the least suffixes of a group one rank splits them off, when they
agree on twice as many letters. -/
theorem renumber (hpart : Part text h rank l start part)
    (hranks : Ranks text h rank) (hne : part ≠ [])
    (hagree : ∀ s ∈ part, ∀ t ∈ part, s ≠ t → Agree text (h + h) s t) :
    Splits text h rank start part
      (SuffixRanks.renumber part.toFinset (start + part.length - 1) rank)
      (groupEntries part) part := by
  have hnew := hpart.renumbers hne
  have hpos := List.length_pos_iff.mpr hne
  refine ⟨hranks.renumber hnew, ?_, List.Perm.refl part, ?_, ?_⟩
  · intro s hs
    exact renumber_of_not_mem (fun h => hs (List.mem_toFinset.mp h))
  · rw [groupEntries]
    split
    · rename_i hone
      obtain ⟨s, rfl⟩ := List.length_eq_one_iff.mp hone
      refine Blocks.single ?_
      rw [renumber_of_mem (by simp)]
      simp
    · rename_i hone
      have hblocks : Blocks text.length (h + h)
          (SuffixRanks.renumber part.toFinset (start + part.length - 1) rank)
          start (part.map Int.ofNat ++ []) (part ++ []) := by
        refine Blocks.group hne ?_ ?_ (Blocks.nil _)
        · intro s hs
          rw [renumber_of_mem (List.mem_toFinset.mpr hs)]
          omega
        · intro s hs
          obtain ⟨t, ht, hst⟩ : ∃ t ∈ part, t ≠ s :=
            exists_ne_of_nodup hpart.nodup (by omega) s
          exact (hagree s hs t ht hst.symm).left
      simpa using hblocks
  · intro s hs t ht hst heq
    refine hagree s hs t ?_ hst
    by_contra hfar
    have hfar' : t ∉ part.toFinset := fun h => hfar (List.mem_toFinset.mp h)
    rw [renumber_of_mem (List.mem_toFinset.mpr hs),
      renumber_of_not_mem hfar'] at heq
    have hiff := hnew.le_iff hranks ht hfar'
    omega

end Splits

end Splits

end SuffixRanks

end MetaOS
