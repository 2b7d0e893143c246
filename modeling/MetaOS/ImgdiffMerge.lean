/-
What `MergeAdjacentNormalChunks` does to the chunks of an image.

The loop compacts the list in place.  The runs it looks for are the classes of
`List.splitBy`: what it leaves is one chunk for each of them.
-/
import Mathlib.Data.List.SplitBy
import MetaOS.Imgdiff

namespace MetaOS

namespace Imgdiff

variable {P : Type}

section Runs

variable [VAdd Nat P] [DecidableEq P]

/-- Both chunks are normal, and the second begins where the first ends. -/
def joins (prev chunk : ImageChunk P) : Bool :=
  prev.type = .normal && follows prev chunk

theorem joins_iff {prev chunk : ImageChunk P} :
    joins prev chunk = true ↔ prev.type = .normal ∧ chunk.type = .normal ∧
      chunk.start = prev.start + prev.len ∧
        chunk.data = prev.len +ᵥ prev.data := by
  simp [joins, follows]

/-- The run that is found starts with the chunk in front of `inEnd`. -/
theorem runEnd_spec {chunks more : List (ImageChunk P)}
    {prev : ImageChunk P} {fuel inEnd : Nat}
    (hrest : chunks.drop inEnd = prev :: more) (hprev : prev.type = .normal)
    (hfuel : more.length ≤ fuel) :
    ∃ run rest, more = run ++ rest ∧
      runEnd chunks fuel (inEnd + 1) = inEnd + 1 + run.length ∧
      (prev :: run).IsChain (fun a b => joins a b) ∧
      ∀ next ∈ rest.head?,
        joins ((prev :: run).getLast (List.cons_ne_nil _ _)) next = false := by
  induction fuel generalizing prev more inEnd with
  | zero =>
      have hnil : more = [] := List.length_eq_zero_iff.mp (by omega)
      exact ⟨[], [], hnil, rfl, List.isChain_singleton _, by simp⟩
  | succ fuel ih =>
      have hhere : chunks[inEnd]? = some prev := by
        rw [← List.head?_drop, hrest, List.head?_cons]
      have hbehind : chunks.drop (inEnd + 1) = more := by
        rw [← List.drop_drop, hrest, List.drop_one, List.tail_cons]
      rw [runEnd, Nat.add_sub_cancel, hhere]
      cases more with
      | nil =>
          have hend : chunks[inEnd + 1]? = none := by
            rw [← List.head?_drop, hbehind, List.head?_nil]
          rw [hend]
          exact ⟨[], [], rfl, rfl, List.isChain_singleton _, by simp⟩
      | cons chunk more =>
          have hnext : chunks[inEnd + 1]? = some chunk := by
            rw [← List.head?_drop, hbehind, List.head?_cons]
          rw [hnext]
          dsimp only
          by_cases hfollows : follows prev chunk = true
          · have hjoins : joins prev chunk = true := by
              simp [joins, hprev, hfollows]
            obtain ⟨run, rest, rfl, hend, hchain, hlast⟩ :=
              ih hbehind (joins_iff.mp hjoins).2.1
                (Nat.le_of_succ_le_succ hfuel)
            rw [if_pos hfollows]
            refine ⟨chunk :: run, rest, rfl, ?_,
              List.isChain_cons_cons.mpr ⟨hjoins, hchain⟩, ?_⟩
            · rw [hend, List.length_cons]
              omega
            · intro next hmem
              rw [List.getLast_cons_cons]
              exact hlast next hmem
          · rw [if_neg hfollows]
            refine ⟨[], chunk :: more, rfl, rfl, List.isChain_singleton _, ?_⟩
            intro next hmem
            cases hmem
            simp [joins, hfollows]

end Runs

/-- One chunk for a run. -/
inductive Collapses : List (ImageChunk P) → ImageChunk P → Prop
  | single {chunk : ImageChunk P} : Collapses [chunk] chunk
  | run {first second merged : ImageChunk P} {more : List (ImageChunk P)}
      (htype : merged.type = .normal) (hstart : merged.start = first.start)
      (hdata : merged.data = first.data)
      (hlen : merged.len =
        ((first :: second :: more).map ImageChunk.len).sum) :
      Collapses (first :: second :: more) merged

section Loop

variable [AddAction Nat P] [DecidableEq P]

/-- A run reaches as far as its lengths add up to. -/
theorem run_reach {prev : ImageChunk P} {run : List (ImageChunk P)}
    (hchain : (prev :: run).IsChain (fun a b => joins a b)) :
    let last := (prev :: run).getLast (List.cons_ne_nil _ _)
    last.start + last.len =
        prev.start + ((prev :: run).map ImageChunk.len).sum ∧
      last.len +ᵥ last.data =
        ((prev :: run).map ImageChunk.len).sum +ᵥ prev.data := by
  induction run generalizing prev with
  | nil => simp
  | cons chunk run ih =>
      obtain ⟨hjoins, hchain⟩ := List.isChain_cons_cons.mp hchain
      obtain ⟨-, -, hstart, hdata⟩ := joins_iff.mp hjoins
      obtain ⟨hreach, haddr⟩ := ih hchain
      rw [List.getLast_cons_cons]
      refine ⟨?_, ?_⟩
      · rw [hreach, hstart, List.map_cons, List.map_cons, List.map_cons,
          List.sum_cons, List.sum_cons, List.sum_cons]
        omega
      · rw [haddr, hdata, vadd_vadd, List.map_cons, List.map_cons,
          List.map_cons, List.sum_cons, List.sum_cons, List.sum_cons]
        congr 1
        omega

/-- The merged chunk has the length of the whole run. -/
theorem collapses_mergeInto (old : ImageChunk P) {first second :
    ImageChunk P} {more : List (ImageChunk P)}
    (hchain : (first :: second :: more).IsChain (fun a b => joins a b)) :
    Collapses (first :: second :: more) (mergeInto old first
      ((first :: second :: more).getLast (List.cons_ne_nil _ _))) := by
  obtain ⟨hreach, -⟩ := run_reach hchain
  have hlast : ((first :: second :: more).getLast
      (List.cons_ne_nil _ _)).len ≤
        ((first :: second :: more).map ImageChunk.len).sum :=
    List.single_le_sum (fun _ _ => Nat.zero_le _) _
      (List.mem_map_of_mem (List.getLast_mem _))
  refine Collapses.run rfl rfl rfl ?_
  dsimp only [mergeInto]
  omega

/-- One pass of the loop takes a whole run and puts one chunk in its place. -/
theorem mergeLoop_pass (fuel : Nat) {chunks more : List (ImageChunk P)}
    {first : ImageChunk P} {out inStart : Nat}
    (hrest : chunks.drop inStart = first :: more) (hout : out ≤ inStart) :
    ∃ run rest merged, more = run ++ rest ∧
      (first :: run).IsChain (fun a b => joins a b) ∧
      (∀ next ∈ rest.head?,
        joins ((first :: run).getLast (List.cons_ne_nil _ _)) next = false) ∧
      Collapses (first :: run) merged ∧
      mergeLoop (fuel + 1) chunks out inStart =
        mergeLoop fuel (chunks.set out merged) (out + 1)
          (inStart + 1 + run.length) := by
  have hhere : chunks[inStart]? = some first := by
    rw [← List.head?_drop, hrest, List.head?_cons]
  have hlength : chunks.length = inStart + 1 + more.length := by
    have hcount := congrArg List.length hrest
    rw [List.length_drop, List.length_cons] at hcount
    omega
  have hrun : ∃ run rest, more = run ++ rest ∧
      (if first.type ≠ .normal then inStart + 1
        else runEnd chunks chunks.length (inStart + 1)) =
          inStart + 1 + run.length ∧
      (first :: run).IsChain (fun a b => joins a b) ∧
      ∀ next ∈ rest.head?,
        joins ((first :: run).getLast (List.cons_ne_nil _ _)) next =
          false := by
    by_cases hnormal : first.type = .normal
    · rw [if_neg (by simpa using hnormal)]
      exact runEnd_spec hrest hnormal (by omega)
    · rw [if_pos hnormal]
      refine ⟨[], more, rfl, rfl, List.isChain_singleton _, ?_⟩
      intro next _
      simp [joins, hnormal]
  obtain ⟨run, rest, rfl, hend, hchain, hlast⟩ := hrun
  rw [mergeLoop, hhere]
  dsimp only
  rw [hend]
  cases run with
  | nil =>
      refine ⟨[], rest, first, rfl, hchain, hlast, Collapses.single, ?_⟩
      simp only [List.length_nil, Nat.add_zero, if_true]
      by_cases hsame : out = inStart
      · have hset : chunks.set out first = chunks := by
          obtain ⟨hlt, hget⟩ := List.getElem?_eq_some_iff.mp hhere
          rw [hsame, ← hget]
          exact List.set_getElem_self hlt
        simp only [hsame, ne_eq, not_true, if_false]
        rw [← hsame, hset]
      · simp only [ne_eq, hsame, not_false_eq_true, if_true]
  | cons second run =>
      obtain ⟨old, hold⟩ : ∃ old, chunks[out]? = some old :=
        ⟨_, List.getElem?_eq_getElem (by omega)⟩
      have hfinal : chunks[inStart + 1 + (second :: run).length - 1]? =
          some ((first :: second :: run).getLast
            (List.cons_ne_nil _ _)) := by
        have hplace : inStart + 1 + (second :: run).length - 1 =
            inStart + ((first :: second :: run).length - 1) := by
          simp only [List.length_cons]
          omega
        rw [hplace, ← List.getElem?_drop, hrest, ← List.cons_append,
          List.getElem?_append_left (by simp), ← List.getLast?_eq_getElem?,
          List.getLast?_eq_getLast_of_ne_nil]
      refine ⟨second :: run, rest, _, rfl, hchain, hlast,
        collapses_mergeInto old hchain, ?_⟩
      rw [if_neg (by simp), hold, hfinal]

/-- The loop leaves one chunk for each run. -/
theorem mergeLoop_spec {chunks rest : List (ImageChunk P)}
    {fuel out inStart : Nat} (hrest : chunks.drop inStart = rest)
    (hout : out ≤ inStart) (hfuel : rest.length ≤ fuel) :
    ∃ merged, List.Forall₂ Collapses (rest.splitBy joins) merged ∧
      (mergeLoop fuel chunks out inStart).1.take
          (mergeLoop fuel chunks out inStart).2 =
        chunks.take out ++ merged := by
  induction fuel generalizing chunks rest out inStart with
  | zero =>
      have hnil : rest = [] := List.length_eq_zero_iff.mp (by omega)
      subst hnil
      exact ⟨[], List.Forall₂.nil, (List.append_nil _).symm⟩
  | succ fuel ih =>
      cases rest with
      | nil =>
          have hend : chunks[inStart]? = none := by
            rw [← List.head?_drop, hrest, List.head?_nil]
          refine ⟨[], List.Forall₂.nil, ?_⟩
          rw [mergeLoop, hend, List.append_nil]
      | cons first more =>
          obtain ⟨run, rest, merged, rfl, hchain, hlast, hcollapses,
            hpass⟩ := mergeLoop_pass fuel hrest hout
          have hbehind : (chunks.set out merged).drop
              (inStart + 1 + run.length) = rest := by
            have hlt : out < inStart + 1 + run.length := by omega
            rw [List.drop_set_of_lt hlt, Nat.add_assoc, ← List.drop_drop,
              hrest, Nat.add_comm 1, List.drop_succ_cons, List.drop_left]
          have hahead : out + 1 ≤ inStart + 1 + run.length := by omega
          have hless : rest.length ≤ fuel := by
            rw [List.length_cons, List.length_append] at hfuel
            omega
          obtain ⟨others, hothers, htake⟩ := ih hbehind hahead hless
          have hsplit : (first :: (run ++ rest)).splitBy joins =
              (first :: run) :: rest.splitBy joins := by
            rw [← List.cons_append, List.splitBy_append,
              List.splitBy_of_isChain (List.cons_ne_nil _ _) hchain,
              List.singleton_append]
            intro last hmem next hnext
            rw [List.getLast?_eq_getLast_of_ne_nil (List.cons_ne_nil _ _)]
              at hmem
            cases hmem
            exact hlast next hnext
          have hroom : out < chunks.length := by
            have hcount := congrArg List.length hrest
            rw [List.length_drop, List.length_cons] at hcount
            omega
          refine ⟨merged :: others, ?_, ?_⟩
          · rw [hsplit]
            exact List.Forall₂.cons hcollapses hothers
          · rw [hpass, htake, List.take_add_one,
              List.take_set_of_le le_rfl,
              List.getElem?_set_self hroom, List.append_assoc]
            rfl

/-- `MergeAdjacentNormalChunks` leaves one chunk for each run. -/
theorem mergeAdjacentNormalChunks_collapses (chunks : List (ImageChunk P)) :
    List.Forall₂ Collapses (chunks.splitBy joins)
      (mergeAdjacentNormalChunks chunks) := by
  obtain ⟨merged, hcollapses, htake⟩ := mergeLoop_spec
    (List.drop_zero : chunks.drop 0 = chunks) le_rfl le_rfl
  rw [List.take_zero, List.nil_append] at htake
  rw [← htake] at hcollapses
  exact hcollapses

end Loop

section Kept

variable [AddAction Nat P] [DecidableEq P]

theorem normal_of_isChain {first second : ImageChunk P}
    {more : List (ImageChunk P)}
    (hchain : (first :: second :: more).IsChain (fun a b => joins a b)) :
    ∀ chunk ∈ first :: second :: more, chunk.type = .normal := by
  induction more generalizing first second with
  | nil =>
      obtain ⟨hjoins, -⟩ := List.isChain_cons_cons.mp hchain
      obtain ⟨hfirst, hsecond, -⟩ := joins_iff.mp hjoins
      intro chunk hmem
      simp only [List.mem_cons, List.not_mem_nil, or_false] at hmem
      rcases hmem with rfl | rfl
      · exact hfirst
      · exact hsecond
  | cons third more ih =>
      obtain ⟨hjoins, hchain⟩ := List.isChain_cons_cons.mp hchain
      intro chunk hmem
      rcases List.mem_cons.mp hmem with rfl | hmem
      · exact (joins_iff.mp hjoins).1
      · exact ih hchain chunk hmem

omit [DecidableEq P] in
theorem cells_of_normal {chunk : ImageChunk P}
    (hnormal : chunk.type = .normal) :
    chunk.cells = (List.range chunk.len).map fun i =>
      (chunk.start + i, i +ᵥ chunk.data) := by
  rw [ImageChunk.cells, ImageChunk.extent, ImageChunk.extentData, hnormal]

/-- The parts of the file that the chunks of a run stand for are one piece. -/
theorem cells_run {first : ImageChunk P} {run : List (ImageChunk P)}
    (hnormal : first.type = .normal)
    (hchain : (first :: run).IsChain (fun a b => joins a b)) :
    (first :: run).flatMap ImageChunk.cells =
      (List.range ((first :: run).map ImageChunk.len).sum).map fun i =>
        (first.start + i, i +ᵥ first.data) := by
  induction run generalizing first with
  | nil =>
      simp [cells_of_normal hnormal]
  | cons second run ih =>
      obtain ⟨hjoins, hchain⟩ := List.isChain_cons_cons.mp hchain
      obtain ⟨-, hsecond, hstart, hdata⟩ := joins_iff.mp hjoins
      have hsum : ((first :: second :: run).map ImageChunk.len).sum =
          first.len + ((second :: run).map ImageChunk.len).sum := by
        rw [List.map_cons, List.sum_cons]
      rw [List.flatMap_cons, ih hsecond hchain, cells_of_normal hnormal,
        hsum, List.range_add, List.map_append, List.map_map]
      congr 1
      refine List.map_congr_left fun i _ => ?_
      simp only [Function.comp_apply, hstart, hdata, vadd_vadd,
        Nat.add_assoc, Nat.add_comm i]

namespace Collapses

variable {group : List (ImageChunk P)} {merged : ImageChunk P}

theorem cells (hcollapses : Collapses group merged)
    (hchain : group.IsChain (fun a b => joins a b)) :
    merged.cells = group.flatMap ImageChunk.cells := by
  cases hcollapses with
  | single => simp
  | @run first second _ more htype hstart hdata hlen =>
      have hfirst := normal_of_isChain hchain first List.mem_cons_self
      rw [cells_run hfirst hchain, cells_of_normal htype, hstart, hdata, hlen]

theorem filter_not_normal (hcollapses : Collapses group merged)
    (hchain : group.IsChain (fun a b => joins a b)) :
    [merged].filter (·.type ≠ .normal) = group.filter (·.type ≠ .normal) := by
  cases hcollapses with
  | single => rfl
  | @run first second _ more htype hstart hdata hlen =>
      have hnone : (first :: second :: more).filter (·.type ≠ .normal) =
          [] := by
        rw [List.filter_eq_nil_iff]
        intro chunk hmem
        simpa using normal_of_isChain hchain chunk hmem
      rw [hnone]
      simp [htype]

/-- Seen from behind, the merged chunk is the last of the run. -/
theorem joins_left (hcollapses : Collapses group merged)
    (hchain : group.IsChain (fun a b => joins a b)) (hne : group ≠ [])
    (chunk : ImageChunk P) :
    joins merged chunk = joins (group.getLast hne) chunk := by
  cases hcollapses with
  | single => rfl
  | run htype hstart hdata hlen =>
      obtain ⟨hreach, haddr⟩ := run_reach hchain
      have hlast := normal_of_isChain hchain _ (List.getLast_mem hne)
      rw [Bool.eq_iff_iff, joins_iff, joins_iff, htype, hlast, hstart, hdata,
        hlen, hreach, haddr]

/-- Seen from the front, it is the first. -/
theorem joins_right (hcollapses : Collapses group merged)
    (hchain : group.IsChain (fun a b => joins a b)) (hne : group ≠ [])
    (chunk : ImageChunk P) :
    joins chunk merged = joins chunk (group.head hne) := by
  cases hcollapses with
  | single => rfl
  | run htype hstart hdata hlen =>
      have hfirst := normal_of_isChain hchain _ (List.head_mem hne)
      rw [Bool.eq_iff_iff, joins_iff, joins_iff, htype, hfirst, hstart, hdata,
        List.head_cons]

end Collapses

theorem isChain_of_collapses {groups : List (List (ImageChunk P))}
    {merged : List (ImageChunk P)}
    (hcollapses : List.Forall₂ Collapses groups merged)
    (hchain : ∀ group ∈ groups, group.IsChain (fun a b => joins a b))
    (hsplit : groups.IsChain fun a b =>
      ∃ ha hb, joins (a.getLast ha) (b.head hb) = false) :
    merged.IsChain fun a b => joins a b = false := by
  induction hcollapses with
  | nil => exact List.isChain_nil
  | @cons group chunk groups merged hfirst hrest ih =>
      have htail := ih (fun other hmem =>
        hchain other (List.mem_cons_of_mem _ hmem)) hsplit.tail
      cases hrest with
      | nil => exact List.isChain_singleton _
      | cons hsecond hrest =>
          obtain ⟨⟨ha, hb, hapart⟩, -⟩ := List.isChain_cons_cons.mp hsplit
          refine List.isChain_cons_cons.mpr ⟨?_, htail⟩
          rw [hfirst.joins_left (hchain _ List.mem_cons_self) ha,
            hsecond.joins_right (hchain _ (by simp)) hb]
          exact hapart

theorem cells_of_collapses {groups : List (List (ImageChunk P))}
    {merged : List (ImageChunk P)}
    (hcollapses : List.Forall₂ Collapses groups merged)
    (hchain : ∀ group ∈ groups, group.IsChain (fun a b => joins a b)) :
    merged.flatMap ImageChunk.cells =
      groups.flatten.flatMap ImageChunk.cells := by
  induction hcollapses with
  | nil => rfl
  | cons hfirst _ ih =>
      rw [List.flatMap_cons, List.flatten_cons, List.flatMap_append,
        hfirst.cells (hchain _ List.mem_cons_self),
        ih fun group hmem => hchain group (List.mem_cons_of_mem _ hmem)]

theorem filter_of_collapses {groups : List (List (ImageChunk P))}
    {merged : List (ImageChunk P)}
    (hcollapses : List.Forall₂ Collapses groups merged)
    (hchain : ∀ group ∈ groups, group.IsChain (fun a b => joins a b)) :
    merged.filter (·.type ≠ .normal) =
      groups.flatten.filter (·.type ≠ .normal) := by
  induction hcollapses with
  | nil => rfl
  | @cons group chunk groups merged hfirst _ ih =>
      rw [List.flatten_cons, List.filter_append,
        ← hfirst.filter_not_normal (hchain _ List.mem_cons_self),
        ← ih fun group hmem => hchain group (List.mem_cons_of_mem _ hmem),
        ← List.filter_append, List.singleton_append]

/-- What `MergeAdjacentNormalChunks` keeps. -/
structure Keeps (chunks merged : List (ImageChunk P)) : Prop where
  cells : merged.flatMap ImageChunk.cells = chunks.flatMap ImageChunk.cells
  others : merged.filter (·.type ≠ .normal) =
    chunks.filter (·.type ≠ .normal)
  apart : merged.IsChain fun a b => joins a b = false

theorem keeps_mergeAdjacentNormalChunks (chunks : List (ImageChunk P)) :
    Keeps chunks (mergeAdjacentNormalChunks chunks) := by
  have hcollapses := mergeAdjacentNormalChunks_collapses chunks
  have hchain : ∀ group ∈ chunks.splitBy joins,
      group.IsChain (fun a b => joins a b) :=
    fun _ => List.isChain_of_mem_splitBy
  have hcells := cells_of_collapses hcollapses hchain
  have hothers := filter_of_collapses hcollapses hchain
  rw [List.flatten_splitBy] at hcells hothers
  exact ⟨hcells, hothers, isChain_of_collapses hcollapses hchain
    (List.isChain_getLast_head_splitBy _ _)⟩

end Kept

end Imgdiff

end MetaOS
