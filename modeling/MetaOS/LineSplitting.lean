/-
Texts cut into lines.  A line is ended by an element of its own; what follows
the last end is a line still to be completed.
-/
import Mathlib.Tactic

namespace MetaOS

namespace Lines

variable {α : Type} (isEnd : α → Bool)

/-- The lines that have been ended, without the empty ones. -/
def complete (text : List α) : List (List α) :=
  (text.splitOnP isEnd).dropLast.filter (!·.isEmpty)

/-- No line begins with the mark, also not the last one. -/
def NoneBegins (mark text : List α) : Prop :=
  ∀ line ∈ text.splitOnP isEnd, ¬ mark <+: line

/-- A run of ends, a line after it and the end of the line, where it has come,
are no longer than `size`. -/
def Fits (size : Nat) (text : List α) : Prop :=
  ∀ before run line after, text = before ++ (run ++ (line ++ after)) →
    (∀ c ∈ run, isEnd c = true) → (∀ c ∈ line, isEnd c = false) →
    line ≠ [] →
    run.length + line.length + (if after.isEmpty then 0 else 1) ≤ size

variable {isEnd} {mark line run text : List α} {c : α} {size : Nat}

theorem splitOnP_end (hend : isEnd c = true) :
    (c :: text).splitOnP isEnd = [] :: text.splitOnP isEnd := by
  rw [List.splitOnP_cons_eq_if_modifyHead, if_pos hend]

theorem complete_end (hend : isEnd c = true) :
    complete isEnd (c :: text) = complete isEnd text := by
  unfold complete
  rw [splitOnP_end hend,
    List.dropLast_cons_of_ne_nil (List.splitOnP_ne_nil _ _)]
  rfl

theorem complete_ends (hrun : ∀ c ∈ run, isEnd c = true) :
    complete isEnd (run ++ text) = complete isEnd text := by
  induction run with
  | nil => rfl
  | cons c run ih =>
      rw [List.cons_append, complete_end (hrun c List.mem_cons_self)]
      exact ih fun c hc => hrun c (List.mem_cons_of_mem _ hc)

theorem complete_line (hline : ∀ c ∈ line, isEnd c = false) (hne : line ≠ [])
    (hend : isEnd c = true) :
    complete isEnd (line ++ c :: text) = line :: complete isEnd text := by
  unfold complete
  rw [List.splitOnP_append_cons_of_forall_mem hline c hend,
    List.dropLast_cons_of_ne_nil (List.splitOnP_ne_nil _ _),
    List.filter_cons_of_pos (by simpa using hne)]

theorem complete_tail (hline : ∀ c ∈ line, isEnd c = false) :
    complete isEnd line = [] := by
  unfold complete
  rw [List.splitOnP_eq_singleton hline]
  rfl

theorem NoneBegins.of_ends (hnone : NoneBegins isEnd mark (run ++ text))
    (hrun : ∀ c ∈ run, isEnd c = true) : NoneBegins isEnd mark text := by
  induction run with
  | nil => exact hnone
  | cons c run ih =>
      apply ih
      · intro line hline
        apply hnone line
        rw [List.cons_append, splitOnP_end (hrun c List.mem_cons_self)]
        exact List.mem_cons_of_mem _ hline
      · exact fun c hc => hrun c (List.mem_cons_of_mem _ hc)

theorem NoneBegins.of_line
    (hnone : NoneBegins isEnd mark (line ++ c :: text))
    (hline : ∀ c ∈ line, isEnd c = false) (hend : isEnd c = true) :
    NoneBegins isEnd mark text := by
  intro next hnext
  apply hnone next
  rw [List.splitOnP_append_cons_of_forall_mem hline c hend]
  exact List.mem_cons_of_mem _ hnext

theorem splitOnP_unended (hline : ∀ c ∈ line, isEnd c = false)
    (text : List α) :
    ∃ first others,
      (line ++ text).splitOnP isEnd = (line ++ first) :: others := by
  induction line with
  | nil => exact List.exists_cons_of_ne_nil (List.splitOnP_ne_nil isEnd text)
  | cons c line ih =>
      obtain ⟨first, others, hsplit⟩ :=
        ih fun c hc => hline c (List.mem_cons_of_mem _ hc)
      refine ⟨first, others, ?_⟩
      rw [List.cons_append, List.splitOnP_cons_eq_if_modifyHead,
        if_neg (by simp [hline c List.mem_cons_self]), hsplit,
        List.modifyHead_cons, List.cons_append]

/-- What has come of a line does not begin with the mark either. -/
theorem NoneBegins.not_begins (hnone : NoneBegins isEnd mark (line ++ text))
    (hline : ∀ c ∈ line, isEnd c = false) : ¬ mark <+: line := by
  intro hmark
  obtain ⟨first, others, hsplit⟩ := splitOnP_unended hline text
  apply hnone (line ++ first)
  · rw [hsplit]
    exact List.mem_cons_self
  · exact hmark.trans (List.prefix_append line first)

/-- A text is a run of ends, then a line that has been ended or one that has
not. -/
theorem run_then_line (isEnd : α → Bool) (text : List α) :
    ∃ run, (∀ c ∈ run, isEnd c = true) ∧
      ((∃ tail, text = run ++ tail ∧ ∀ c ∈ tail, isEnd c = false) ∨
        ∃ line c more, text = run ++ (line ++ c :: more) ∧ line ≠ [] ∧
          (∀ c ∈ line, isEnd c = false) ∧ isEnd c = true) := by
  induction text with
  | nil => exact ⟨[], by simp, .inl ⟨[], rfl, by simp⟩⟩
  | cons c text ih =>
      obtain ⟨run, hrun, hrest⟩ := ih
      by_cases hend : isEnd c = true
      · refine ⟨c :: run, by simpa [hend] using hrun, ?_⟩
        rcases hrest with ⟨tail, rfl, htail⟩ | ⟨line, e, more, rfl, hline⟩
        · exact .inl ⟨tail, rfl, htail⟩
        · exact .inr ⟨line, e, more, rfl, hline⟩
      · rw [Bool.not_eq_true] at hend
        refine ⟨[], by simp, ?_⟩
        -- The element begins a line; an end among the rest ends it.
        cases run with
        | cons e run =>
            right
            have htext : ∃ more, text = e :: more := by
              rcases hrest with ⟨tail, rfl, -⟩ | ⟨line, e', more, rfl, -⟩
              · exact ⟨_, rfl⟩
              · exact ⟨_, rfl⟩
            obtain ⟨more, rfl⟩ := htext
            exact ⟨[c], e, more, rfl, by simp, by simp [hend],
              hrun e List.mem_cons_self⟩
        | nil =>
            rcases hrest with ⟨tail, htext, htail⟩ |
              ⟨line, e, more, htext, -, hline, he⟩
            · exact .inl ⟨c :: tail, by rw [htext]; rfl,
                by simpa [hend] using htail⟩
            · exact .inr ⟨c :: line, e, more, by rw [htext]; rfl, by simp,
                by simpa [hend] using hline, he⟩

theorem fits_of_length_le (hsize : text.length ≤ size) :
    Fits isEnd size text := by
  intro before run line after htext _ _ _
  rw [htext] at hsize
  simp only [List.length_append] at hsize
  cases after with
  | nil =>
      simp only [List.isEmpty_nil, if_true]
      omega
  | cons c after =>
      simp only [List.isEmpty_cons, Bool.false_eq_true, if_false]
      rw [List.length_cons] at hsize
      omega

theorem Fits.of_append {before : List α}
    (hfits : Fits isEnd size (before ++ text)) : Fits isEnd size text := by
  intro before' run line after htext
  apply hfits (before ++ before')
  rw [htext, List.append_assoc]

end Lines

end MetaOS
