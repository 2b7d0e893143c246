/-
The passes of `qsufsort`: in each pass every group is split, so that after it
the suffixes are told apart by twice as many bytes; in the end everything is
one run, and the ranks are the places of the suffixes in sorted order.
-/
import MetaOS.SuffixSortBuckets

namespace MetaOS

namespace Bsdiff

open ThreeWay SuffixRanks

section Pass

variable {text : Bytes} {V : List Nat} {rank : Nat → Nat} {h i : Nat}
  {done pend todo rest stale : List Int} {first sorted group last : List Nat}

/-- A pass on its way: the groups of `first` are split, the suffixes in
`sorted` make up the run before place `i`, and those in `last` follow. -/
structure Midway (text : Bytes) (h : Nat) (rank : Nat → Nat)
    (done pend todo : List Int) (first sorted last : List Nat) : Prop where
  ranks : Ranks text h rank
  split : Blocks text.length (h + h) rank 0 done first
  length : sorted.length = pend.length
  run : sorted.map rank = List.range' done.length sorted.length
  left : Blocks text.length h rank (done.length + pend.length) todo last
  perm : (first ++ (sorted ++ last)).Perm (List.range (text.length + 1))
  tied : ∀ s ∈ first ++ sorted, ∀ t ≤ text.length, s ≠ t → rank s = rank t →
    Agree text (h + h) s t

namespace Midway

theorem total (hmid : Midway text h rank done pend todo first sorted last) :
    done.length + (pend.length + todo.length) = text.length + 1 := by
  have hlength := hmid.perm.length_eq
  rw [List.length_append, List.length_append, List.length_range,
    ← hmid.split.length, hmid.length, ← hmid.left.length] at hlength
  exact hlength

theorem mem_iff (hmid : Midway text h rank done pend todo first sorted last)
    {s : Nat} : s ≤ text.length ↔ s ∈ first ∨ s ∈ sorted ∨ s ∈ last := by
  have hmem := hmid.perm.mem_iff (a := s)
  rw [List.mem_append, List.mem_append, List.mem_range] at hmem
  rw [hmem, Nat.lt_succ_iff]

theorem rank_first (hmid : Midway text h rank done pend todo first sorted last)
    {s : Nat} (hs : s ∈ first) : rank s < done.length := by
  have hplace := hmid.split.places s hs
  rw [← hmid.split.length] at hplace
  omega

theorem rank_sorted
    (hmid : Midway text h rank done pend todo first sorted last) {s : Nat}
    (hs : s ∈ sorted) :
    done.length ≤ rank s ∧ rank s < done.length + pend.length := by
  have hmem : rank s ∈ List.range' done.length sorted.length := by
    rw [← hmid.run]
    exact List.mem_map_of_mem hs
  rw [List.mem_range'_1, hmid.length] at hmem
  exact hmem

/-- `if(len) I[i-len]=-len` makes the run one entry. -/
theorem closeRun (hmid : Midway text h rank done pend todo first sorted last) :
    ∃ run, storeIf (pend.length ≠ 0) (done ++ (pend ++ todo))
          (done.length + pend.length - pend.length) (-(pend.length : Int)) =
        some (done ++ (run ++ todo)) ∧ run.length = pend.length ∧
      Blocks text.length (h + h) rank 0 (done ++ run) (first ++ sorted) := by
  rw [Nat.add_sub_cancel]
  cases pend with
  | nil =>
      have hnil : sorted = [] := List.length_eq_zero_iff.mp hmid.length
      subst hnil
      refine ⟨[], ?_, rfl, ?_⟩
      · rw [storeIf, if_neg (by simp)]
      · simpa using hmid.split
  | cons p pend =>
      have hlength := hmid.length
      refine ⟨-((p :: pend).length : Int) :: pend, ?_, rfl, ?_⟩
      · rw [storeIf, if_pos (by simp), store, if_pos (by simp)]
        simp
      · refine hmid.split.append ?_
        have hrun : Blocks text.length (h + h) rank (0 + first.length)
            (-(sorted.length : Int) :: (pend ++ [])) (sorted ++ []) :=
          Blocks.run hlength
            (by rw [hmid.run, hmid.split.length, Nat.zero_add]) (Blocks.nil _)
        rw [hlength] at hrun
        simpa using hrun

/-- A run is added to the run before it. -/
theorem addRun {joined : List Nat} (hmid : Midway text h rank done pend
      (-(joined.length : Int) :: (stale ++ rest)) first sorted
      (joined ++ last))
    (hlength : joined.length = stale.length + 1)
    (hfinal : joined.map rank =
      List.range' (done.length + pend.length) joined.length)
    (hlater : Blocks text.length h rank
      (done.length + pend.length + joined.length) rest last) :
    Midway text h rank done (pend ++ (-(joined.length : Int) :: stale)) rest
      first (sorted ++ joined) last where
  ranks := hmid.ranks
  split := hmid.split
  length := by
    rw [List.length_append, List.length_append, hmid.length, hlength]
    rfl
  run := by
    rw [List.map_append, hmid.run, hfinal, List.length_append, hmid.length,
      ← List.range'_append_1]
  left := by
    rw [List.length_append, List.length_cons, ← hlength, ← Nat.add_assoc]
    exact hlater
  perm := by
    rw [List.append_assoc]
    exact hmid.perm
  tied := by
    intro s hs t ht hst heq
    rw [← List.append_assoc] at hs
    rcases List.mem_append.mp hs with hs | hs
    · exact hmid.tied s hs t ht hst heq
    · -- the places of the run are taken
      exfalso
      have hmem : rank s ∈ List.range' (done.length + pend.length)
          joined.length := by
        rw [← hfinal]
        exact List.mem_map_of_mem hs
      rw [List.mem_range'_1] at hmem
      rcases hmid.mem_iff.mp ht with hfirst | hsorted | hlast
      · have hplace := hmid.rank_first hfirst
        omega
      · have hplace := hmid.rank_sorted hsorted
        omega
      · rcases List.mem_append.mp hlast with hjoined | hlast
        · have hnodup : (joined.map rank).Nodup := by
            rw [hfinal]
            exact List.nodup_range'
          exact hst (List.inj_on_of_nodup_map hnodup hs hjoined heq)
        · have hplace := hlater.places t hlast
          omega

section Group

variable (hmid : Midway text h rank done pend (group.map Int.ofNat ++ rest)
    first sorted (group ++ last))
  (hne : group ≠ [])
  (hlast : ∀ s ∈ group,
    rank s + 1 = done.length + pend.length + group.length)
  (hroom : ∀ s ∈ group, s + h ≤ text.length)
  (hlater : Blocks text.length h rank
    (done.length + pend.length + group.length) rest last)

include hmid in
theorem mem_group {s : Nat} (hs : s ∈ group) : s ≤ text.length :=
  hmid.mem_iff.mpr (Or.inr (Or.inr (List.mem_append_left last hs)))

include hmid hne hlast hlater in
/-- The group at `i` consists of the suffixes with its rank. -/
theorem mem_group_iff {t : Nat} (ht : t ≤ text.length) :
    t ∈ group ↔ rank t + 1 = done.length + pend.length + group.length := by
  refine ⟨hlast t, fun heq => ?_⟩
  have hpos := List.length_pos_iff.mpr hne
  rcases hmid.mem_iff.mp ht with hfirst | hsorted | hrest
  · have hplace := hmid.rank_first hfirst
    omega
  · have hplace := hmid.rank_sorted hsorted
    omega
  · rcases List.mem_append.mp hrest with hgroup | hbehind
    · exact hgroup
    · have hplace := hlater.places t hbehind
      omega

include hmid hne hlast hroom hlater in
theorem part : Part text h rank
    (done.length + pend.length + group.length - 1)
    (done.length + pend.length) group := by
  have hpos := List.length_pos_iff.mpr hne
  have hnodup : group.Nodup := by
    have hall := hmid.perm.nodup_iff.mpr List.nodup_range
    rw [List.nodup_append, List.nodup_append, List.nodup_append] at hall
    exact hall.2.1.2.1.1
  refine ⟨hnodup, ?_, hroom, ?_, ?_⟩
  · intro s hs
    have hrank := hlast s hs
    exact ⟨hmid.mem_group hs, by omega⟩
  · intro s hs t ht hfar hrank
    exact absurd ((hmid.mem_group_iff hne hlast hlater ht).mpr (by omega)) hfar
  · obtain ⟨s, hs⟩ := List.exists_mem_of_ne_nil group hne
    have hrank := hlast s hs
    have hcard := hmid.ranks.group_card (hmid.mem_group hs)
    have hset : (Finset.range (text.length + 1)).filter (rank · = rank s) =
        group.toFinset := by
      ext t
      rw [Finset.mem_filter, Finset.mem_range, List.mem_toFinset,
        Nat.lt_succ_iff]
      constructor
      · rintro ⟨ht, heq⟩
        exact (hmid.mem_group_iff hne hlast hlater ht).mpr (by omega)
      · intro ht
        have hrank' := hlast t ht
        exact ⟨hmid.mem_group ht, by omega⟩
    rw [hset, List.toFinset_card_of_nodup hnodup] at hcard
    rw [show done.length + pend.length + group.length - 1 = rank s by omega]
    omega

include hmid hlater in
/-- Splitting the group at `i` moves the pass on. -/
theorem splitGroup {run entries : List Int} {rank' : Nat → Nat}
    {order : List Nat} (hlength : run.length = pend.length)
    (hblocks : Blocks text.length (h + h) rank 0 (done ++ run)
      (first ++ sorted))
    (hsplits : Splits text h rank (done.length + pend.length) group rank'
      entries order) :
    Midway text h rank' (done ++ (run ++ entries)) [] rest
      (first ++ (sorted ++ order)) [] last := by
  have hentries := hsplits.entries_length
  have hnodup := hmid.perm.nodup_iff.mpr List.nodup_range
  rw [List.nodup_append, List.nodup_append] at hnodup
  have hbefore : ∀ s ∈ first ++ sorted, rank' s = rank s ∧
      rank s < done.length + pend.length := by
    intro s hs
    rcases List.mem_append.mp hs with hs | hs
    · have hplace := hmid.rank_first hs
      refine ⟨hsplits.outside s fun hgroup => ?_, by omega⟩
      exact hnodup.2.2 s hs s (List.mem_append_right sorted
        (List.mem_append_left last hgroup)) rfl
    · refine ⟨hsplits.outside s fun hgroup => ?_, (hmid.rank_sorted hs).2⟩
      exact hnodup.2.1.2.2 s hs s (List.mem_append_left last hgroup) rfl
  have hafter : ∀ s ∈ last, rank' s = rank s := by
    intro s hs
    refine hsplits.outside s fun hgroup => ?_
    have hdisjoint := (List.nodup_append.mp hnodup.2.1.2.1).2.2
    exact hdisjoint s hgroup s hs rfl
  have hplace : (done ++ (run ++ entries)).length =
      done.length + pend.length + group.length := by
    simp only [List.length_append]
    omega
  refine ⟨hsplits.ranks, ?_, rfl, rfl, ?_, ?_, ?_⟩
  · rw [← List.append_assoc, ← List.append_assoc]
    refine (hblocks.congr fun s hs => (hbefore s hs).1).append ?_
    rw [← hblocks.length, List.length_append, hlength, Nat.zero_add]
    exact hsplits.blocks
  · rw [List.length_nil, Nat.add_zero, hplace]
    exact hlater.congr hafter
  · refine List.Perm.trans ?_ hmid.perm
    have hmiddle := (hsplits.perm.append_right last).append_left
      (first ++ sorted)
    simpa using hmiddle
  · intro s hs t ht hst heq
    have hs' : s ∈ first ++ sorted ∨ s ∈ group := by
      have hmem := hsplits.perm.mem_iff (a := s)
      simp only [List.mem_append, List.not_mem_nil, or_false] at hs ⊢
      tauto
    rcases hs' with hs | hs
    · obtain ⟨hsame, hlow⟩ := hbefore s hs
      have hfar : t ∉ group := by
        intro hgroup
        have hplaces := hsplits.places t hgroup
        omega
      rw [hsame, hsplits.outside t hfar] at heq
      exact hmid.tied s hs t ht hst heq
    · exact hsplits.tied s hs t ht hst heq

end Group

end Midway

theorem read_stores {s : Nat} (hstores : Stores text V rank)
    (hs : s ≤ text.length) : keyAt V 0 (Int.ofNat s) = some (rank s) :=
  hstores.keyAt (h := 0) hs

/-- A pass splits every group. -/
theorem pass_spec {fuel : Nat}
    (hmid : Midway text h rank done pend todo first sorted last)
    (hstores : Stores text V rank) (hfuel : todo.length < fuel) :
    ∃ I' V' rank' order,
      pass text.length h fuel (done.length + pend.length) pend.length
          ⟨done ++ (pend ++ todo), V⟩ = some ⟨I', V'⟩ ∧
      Stores text V' rank' ∧ Ranks text (h + h) rank' ∧
      Blocks text.length (h + h) rank' 0 I' order ∧
      order.Perm (List.range (text.length + 1)) := by
  induction fuel generalizing done pend todo first sorted last V rank with
  | zero => omega
  | succ fuel ih =>
      have htotal := hmid.total
      obtain ⟨run, hclose, hrun_length, hblocks⟩ := hmid.closeRun
      have hleft := hmid.left
      cases hleft with
      | nil =>
          rw [List.length_nil] at htotal
          refine ⟨done ++ (run ++ []), V, rank, first ++ sorted, ?_, hstores,
            ⟨hmid.ranks.below, ?_, hmid.ranks.last⟩,
            by simpa using hblocks, ?_⟩
          · rw [pass, if_neg (by omega), hclose]
            rfl
          · intro s hs t ht hst heq
            refine hmid.tied s ?_ t ht hst heq
            have hmem := hmid.mem_iff.mp hs
            simpa using hmem
          · simpa using hmid.perm
      | @run _ joined last stale rest length final later =>
          obtain ⟨I', V', rank', order, hpass, hends⟩ :=
            ih (hmid.addRun length final later) hstores (by
              rw [List.length_cons, List.length_append] at hfuel
              omega)
          refine ⟨I', V', rank', order, ?_, hends⟩
          have hread : (done ++ (pend ++ (-(joined.length : Int) ::
              (stale ++ rest))))[done.length + pend.length]? =
              some (-(joined.length : Int)) := by
            rw [← List.append_assoc]
            exact read_behind (by rw [List.length_append])
          have hadded : (pend ++ (-(joined.length : Int) :: stale)).length =
              pend.length + joined.length := by
            rw [List.length_append, List.length_cons, length]
          rw [List.length_cons] at htotal
          rw [pass, if_pos (by omega), hread]
          simp only [Option.bind_eq_bind, Option.bind_some]
          rw [if_pos (by omega), Int.natAbs_neg, Int.natAbs_natCast]
          rw [hadded, ← Nat.add_assoc] at hpass
          simpa using hpass
      | @group _ group last rest nonempty hlast room later =>
          have hpart := hmid.part nonempty hlast room later
          have hpos := List.length_pos_iff.mpr nonempty
          obtain ⟨V₁, rank₁, entries, order₁, hsplit, hstores₁, hsplits⟩ :=
            split_spec (done ++ run) rest (group.length + 1) hmid.ranks hstores
              (by rw [List.length_append, hrun_length]) nonempty hpart
              (Nat.lt_succ_self _)
          obtain ⟨I', V', rank', order, hpass, hends⟩ :=
            ih (hmid.splitGroup later hrun_length hblocks hsplits) hstores₁ (by
              rw [List.length_append, List.length_map] at hfuel
              omega)
          refine ⟨I', V', rank', order, ?_, hends⟩
          obtain ⟨s, hs, hread⟩ : ∃ s ∈ group, ∀ front : List Int,
              front.length = done.length + pend.length →
              (front ++ (group.map Int.ofNat ++ rest))[
                done.length + pend.length]? = some (Int.ofNat s) := by
            cases group with
            | nil => exact absurd rfl nonempty
            | cons s group =>
                exact ⟨s, List.mem_cons_self, fun front hfront =>
                  read_behind hfront.symm⟩
          have hrank := hlast s hs
          rw [List.length_append, List.length_map] at htotal
          have hread₁ := hread (done ++ pend) (by rw [List.length_append])
          have hread₂ := hread (done ++ run)
            (by rw [List.length_append, hrun_length])
          rw [List.append_assoc] at hread₁ hread₂ hsplit
          rw [pass, if_pos (by omega)]
          simp only [hread₁, Option.bind_eq_bind, Option.bind_some]
          rw [if_neg (by simp)]
          simp only [hclose, hread₂, Option.bind_some,
            read_stores hstores (hmid.mem_group hs)]
          rw [if_pos (by omega), show rank s + 1 -
            (done.length + pend.length) = group.length by omega, hsplit,
            Option.bind_some]
          have hplace : (done ++ (run ++ entries)).length =
              done.length + pend.length + group.length := by
            have hentries := hsplits.entries_length
            simp only [List.length_append]
            omega
          rw [hplace] at hpass
          simpa using hpass

/-- When no group has enough letters left, a pass joins the runs. -/
theorem pass_sorted (pend : List Int) {order : List Nat} {fuel : Nat}
    (hblocks : Blocks text.length h rank i todo order)
    (hh : text.length < h) (hi : pend.length = i)
    (htotal : i + todo.length = text.length + 1)
    (hfuel : todo.length < fuel) :
    pass text.length h fuel i i ⟨pend ++ todo, V⟩ =
      some ⟨(pend ++ todo).set 0 (-((text.length : Int) + 1)), V⟩ := by
  induction fuel generalizing pend todo i order with
  | zero => omega
  | succ fuel ih =>
      cases hblocks with
      | nil =>
          rw [List.length_nil, Nat.add_zero] at htotal
          rw [pass, if_neg (by omega), storeIf, if_pos (by omega), store,
            if_pos (by simp; omega), htotal]
          simp
      | @run _ joined order stale rest length final later =>
          have hread : (pend ++ (-(joined.length : Int) ::
              (stale ++ rest)))[i]?
              = some (-(joined.length : Int)) := read_behind hi.symm
          rw [List.length_cons, List.length_append] at htotal hfuel
          have hrest := ih (pend ++ (-(joined.length : Int) :: stale)) later
            (by rw [List.length_append, List.length_cons]; omega)
            (by omega) (by omega)
          rw [pass, if_pos (by omega), hread]
          simp only [Option.bind_eq_bind, Option.bind_some]
          rw [if_pos (by omega), Int.natAbs_neg, Int.natAbs_natCast]
          simpa using hrest
      | @group _ group order rest nonempty hlast room later =>
          obtain ⟨s, hs⟩ := List.exists_mem_of_ne_nil group nonempty
          have hroom := room s hs
          omega

theorem midway_start {I : List Int} {order : List Nat}
    (hranks : Ranks text h rank)
    (hblocks : Blocks text.length h rank 0 I order)
    (hperm : order.Perm (List.range (text.length + 1))) :
    Midway text h rank [] [] I [] [] order where
  ranks := hranks
  split := Blocks.nil 0
  length := rfl
  run := rfl
  left := hblocks
  perm := hperm
  tied := by simp

/-- The loop on `h` ends, and then everything is one run. -/
theorem passes_spec (fuel : Nat) {I : List Int} {order : List Nat}
    (hh : 0 < h) (hranks : Ranks text h rank) (hstores : Stores text V rank)
    (hblocks : Blocks text.length h rank 0 I order)
    (hperm : order.Perm (List.range (text.length + 1)))
    (hfuel : (I[0]? = some (-((text.length : Int) + 1)) ∧ 0 < fuel) ∨
      (1 < fuel ∧ text.length + 2 < fuel + h)) :
    ∃ I' V' rank' order' h',
      passes text.length fuel h ⟨I, V⟩ = some ⟨I', V'⟩ ∧
      Stores text V' rank' ∧ Ranks text h' rank' ∧
      Blocks text.length h' rank' 0 I' order' ∧
      order'.Perm (List.range (text.length + 1)) ∧
      I'[0]? = some (-((text.length : Int) + 1)) := by
  induction fuel generalizing I V rank order h with
  | zero => omega
  | succ fuel ih =>
      have hmid := midway_start hranks hblocks hperm
      have htotal := hmid.total
      simp only [List.length_nil, Nat.zero_add] at htotal
      obtain ⟨first, hfirst⟩ : ∃ first, I[0]? = some first :=
        ⟨I[0], List.getElem?_eq_getElem (by omega)⟩
      by_cases hdone : first = -((text.length : Int) + 1)
      · refine ⟨I, V, rank, order, h, ?_, hstores, hranks, hblocks, hperm,
          by rw [hfirst, hdone]⟩
        rw [passes, hfirst]
        simp only [Option.bind_eq_bind, Option.bind_some]
        rw [if_pos hdone]
      · obtain ⟨I', V', rank', order', hpass, hstores', hranks', hblocks',
          hperm'⟩ := pass_spec hmid hstores
            (by omega : I.length < text.length + 2)
        simp only [List.length_nil, Nat.zero_add, List.nil_append] at hpass
        have hrest : (I'[0]? = some (-((text.length : Int) + 1)) ∧ 0 < fuel) ∨
            (1 < fuel ∧ text.length + 2 < fuel + (h + h)) := by
          have hrun : 1 < fuel + 1 ∧ text.length + 2 < fuel + 1 + h := by
            rcases hfuel with ⟨hone, -⟩ | hfuel
            · rw [hfirst, Option.some_inj] at hone
              exact absurd hone hdone
            · exact hfuel
          by_cases hlong : text.length < h
          · -- nothing was left to split, so this pass has joined all runs
            have hjoined := pass_sorted [] (V := V) hblocks hlong rfl
              (by omega) (by omega : I.length < text.length + 2)
            rw [List.nil_append, hpass, Option.some_inj] at hjoined
            have hI := congrArg Arrays.I hjoined
            refine Or.inl ⟨?_, by omega⟩
            rw [show I' = _ from hI, List.getElem?_set_self (by omega)]
          · exact Or.inr ⟨by omega, by omega⟩
        obtain ⟨I'', V'', rank'', order'', h'', hpasses, hends⟩ :=
          ih (by omega) hranks' hstores' hblocks' hperm' hrest
        refine ⟨I'', V'', rank'', order'', h'', ?_, hends⟩
        rw [passes, hfirst]
        simp only [Option.bind_eq_bind, Option.bind_some]
        rw [if_neg hdone, hpass, Option.bind_some, hpasses]

/-- One run over the whole array holds all ranks in order. -/
theorem order_of_run {I : List Int} {order : List Nat}
    (hblocks : Blocks text.length h rank 0 I order)
    (hperm : order.Perm (List.range (text.length + 1)))
    (hfirst : I[0]? = some (-((text.length : Int) + 1))) :
    order.map rank = List.range (text.length + 1) := by
  have hlength := hperm.length_eq
  rw [List.length_range] at hlength
  cases hblocks with
  | nil => simp at hfirst
  | @run _ sorted last stale rest length final later =>
      rw [List.getElem?_cons_zero, Option.some_inj] at hfirst
      rw [List.length_append] at hlength
      have hnil : last = [] := List.length_eq_zero_iff.mp (by omega)
      subst hnil
      rw [List.append_nil, final, List.range_eq_range',
        show sorted.length = text.length + 1 by omega]
  | @group _ group last rest nonempty hlast room later =>
      cases group with
      | nil => exact absurd rfl nonempty
      | cons s group =>
          rw [List.map_cons, List.cons_append, List.getElem?_cons_zero,
            Option.some_inj] at hfirst
          have hpos := Int.natCast_nonneg s
          have hs : Int.ofNat s = (s : Int) := rfl
          omega

/-- `I[V[i]]=i` writes each suffix to its place. -/
theorem invert_spec {I : List Int} {count i : Nat}
    (hstores : Stores text V rank) (hi : i + count = text.length + 1)
    (hlength : I.length = text.length + 1)
    (hrank : ∀ s ≤ text.length, rank s ≤ text.length)
    (hinj : ∀ s ≤ text.length, ∀ t ≤ text.length, rank s = rank t → s = t)
    (hdone : ∀ s < i, I[rank s]? = some (s : Int)) :
    ∃ I', invert count i ⟨I, V⟩ = some I' ∧ I'.length = text.length + 1 ∧
      ∀ s ≤ text.length, I'[rank s]? = some (s : Int) := by
  induction count generalizing i I with
  | zero =>
      exact ⟨I, rfl, hlength, fun s hs => hdone s (by omega)⟩
  | succ count ih =>
      have hile : i ≤ text.length := by omega
      have hplace := hrank i hile
      obtain ⟨I', hrun, hends⟩ :=
        ih (i := i + 1) (I := I.set (rank i) i) (by omega)
          (by rw [List.length_set, hlength])
          (by
            intro s hs
            by_cases hsi : s = i
            · subst hsi
              rw [List.getElem?_set_self (by omega)]
            · have hne : rank i ≠ rank s :=
                fun heq => hsi (hinj i hile s (by omega) heq).symm
              rw [List.getElem?_set_ne hne]
              exact hdone s (by omega))
      refine ⟨I', ?_, hends⟩
      rw [invert, hstores.read i hile]
      simp only [Option.bind_eq_bind, Option.bind_some]
      rw [store, if_pos (by omega), Option.bind_some, hrun]

end Pass

/-- The suffixes of the old data in sorted order. -/
structure SuffixArray (index : List Nat) (old : Bytes) : Prop where
  perm : index.Perm (List.range (old.length + 1))
  sorted : index.Pairwise fun s t => old.drop s < old.drop t

theorem SuffixArray.indexes {index : List Nat} {old : Bytes}
    (harray : SuffixArray index old) : Indexes index old where
  length := by rw [harray.perm.length_eq, List.length_range]
  entries p hp := by
    have hmem := harray.perm.mem_iff.mp hp
    rw [List.mem_range] at hmem
    omega

/-- Ranks that are the places of a permutation sort the suffixes. -/
theorem suffixArray_of_ranks {old : Bytes} {h : Nat} {rank : Nat → Nat}
    {order : List Nat} (hranks : Ranks old h rank)
    (hperm : order.Perm (List.range (old.length + 1)))
    (horder : order.map rank = List.range (old.length + 1)) :
    SuffixArray order old := by
  refine ⟨hperm, ?_⟩
  have hle : ∀ s ∈ order, s ≤ old.length := by
    intro s hs
    have hmem := hperm.mem_iff.mp hs
    rw [List.mem_range] at hmem
    omega
  have hsorted : (order.map rank).Pairwise (· < ·) := by
    rw [horder]
    exact List.pairwise_lt_range
  rw [List.pairwise_map] at hsorted
  exact hsorted.imp_of_mem fun hs ht hlt =>
    hranks.below _ (hle _ hs) _ (hle _ ht) hlt

/-- There is only one order that sorts the suffixes. -/
theorem SuffixArray.unique {index index' : List Nat} {old : Bytes}
    (harray : SuffixArray index old) (harray' : SuffixArray index' old) :
    index = index' := by
  refine (harray.perm.trans harray'.perm.symm).eq_of_pairwise ?_
    harray.sorted harray'.sorted
  intro s t _ _ hlt hgt
  exact absurd hgt (List.lt_asymm hlt)

theorem qsufsort_run (old : Bytes) (a : Arrays)
    (hI : a.I.length = old.length + 1) (hV : a.V.length = old.length + 1) :
    ∃ index : List Nat, qsufsort old a = some (index.map Int.ofNat) ∧
      SuffixArray index old := by
  obtain ⟨I₁, V₁, order₁, hfirst, hstores₁, hblocks₁, hperm₁⟩ :=
    sortFirst_spec old a hI hV
  obtain ⟨I₂, V₂, rank, order, h, hpasses, hstores, hranks, hblocks, hperm,
    hrun⟩ := passes_spec (old.length + 3) Nat.one_pos
      (firstRank_ranks old) hstores₁ hblocks₁ hperm₁
      (Or.inr ⟨by omega, by omega⟩)
  have horder := order_of_run hblocks hperm hrun
  have hmem : ∀ s, s ≤ old.length ↔ s ∈ order := by
    intro s
    rw [hperm.mem_iff, List.mem_range, Nat.lt_succ_iff]
  have hlength₂ : I₂.length = old.length + 1 := by
    rw [hblocks.length, hperm.length_eq, List.length_range]
  obtain ⟨I₃, hinvert, hlength₃, hplaces⟩ := invert_spec (I := I₂) (i := 0)
    hstores (Nat.zero_add (old.length + 1)) hlength₂
    (by
      intro s hs
      have hrank : rank s ∈ order.map rank :=
        List.mem_map_of_mem ((hmem s).mp hs)
      rw [horder, List.mem_range] at hrank
      omega)
    (by
      intro s hs t ht heq
      have hnodup : (order.map rank).Nodup := by
        rw [horder]
        exact List.nodup_range
      exact List.inj_on_of_nodup_map hnodup ((hmem s).mp hs) ((hmem t).mp ht)
        heq)
    (by omega)
  refine ⟨order, ?_, suffixArray_of_ranks hranks hperm horder⟩
  have hsame : I₃ = order.map Int.ofNat := by
    refine List.ext_getElem? fun j => ?_
    have hlength := hperm.length_eq
    rw [List.length_range] at hlength
    by_cases hj : j < order.length
    · have hrank : rank order[j] = j := by
        have hentry : (order.map rank)[j]? = some (rank order[j]) := by
          rw [List.getElem?_map, List.getElem?_eq_getElem hj]
          rfl
        rw [horder, List.getElem?_range (by omega), Option.some_inj] at hentry
        exact hentry.symm
      have hplace := hplaces order[j] ((hmem _).mpr (List.getElem_mem hj))
      rw [hrank] at hplace
      rw [hplace, List.getElem?_map, List.getElem?_eq_getElem hj]
      rfl
    · rw [List.getElem?_eq_none (by omega),
        List.getElem?_eq_none (by rw [List.length_map]; omega)]
  rw [qsufsort, hfirst]
  simp only [Option.bind_eq_bind, Option.bind_some]
  rw [hpasses, Option.bind_some, hinvert, hsame]

/-- `qsufsort` ends, stays within its arrays whatever they hold at first, and
leaves the suffixes in sorted order.  No other index has them so. -/
theorem qsufsort_sorts (old : Bytes) (a : Arrays)
    (hI : a.I.length = old.length + 1) (hV : a.V.length = old.length + 1) :
    ∃ index : List Nat, qsufsort old a = some (index.map Int.ofNat) ∧
      SuffixArray index old ∧
      ∀ index', SuffixArray index' old → index' = index := by
  obtain ⟨index, hrun, harray⟩ := qsufsort_run old a hI hV
  exact ⟨index, hrun, harray, fun _ harray' => harray'.unique harray⟩

namespace SuffixSortWitness

def old : Bytes := Bytes.ofString "abcabc"

/-- The arrays as `malloc` may leave them. -/
def fresh : Arrays := ⟨List.replicate 7 (-5), List.replicate 7 9⟩

theorem abcabc_sorts : ∃ index : List Nat,
    qsufsort old fresh = some (index.map Int.ofNat) ∧
      SuffixArray index old ∧
      ∀ index', SuffixArray index' old → index' = index :=
  qsufsort_sorts old fresh (by decide) (by decide)

end SuffixSortWitness

end Bsdiff

end MetaOS
