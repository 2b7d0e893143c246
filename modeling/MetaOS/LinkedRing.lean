/-
Circular doubly linked lists whose links lie in the nodes.  A ring runs from
its head through the members and back; linking a node in and taking one out
change a ring in one place and leave all that is not part of it alone.
-/
import Mathlib.Data.List.Nodup
import Mathlib.Logic.Function.Basic
import Mathlib.Tactic

namespace MetaOS

namespace LinkedRing

variable {A : Type} [DecidableEq A]

/-- The two links of every node; nothing is a null pointer. -/
structure Links (A : Type) where
  next : A → Option A
  prev : A → Option A

namespace Links

def setNext (l : Links A) (a : A) (b : Option A) : Links A :=
  { l with next := Function.update l.next a b }

def setPrev (l : Links A) (a : A) (b : Option A) : Links A :=
  { l with prev := Function.update l.prev a b }

/-- Link `ev` in before `at`; following a null pointer ends the program. -/
def insertBefore (l : Links A) (ev list : A) : Option (Links A) := do
  let l := l.setNext ev (some list)
  let l := l.setPrev ev (l.prev list)
  let before ← l.prev ev
  let l := l.setNext before (some ev)
  pure (l.setPrev list (some ev))

/-- Take `ev` out. -/
def remove (l : Links A) (ev : A) : Option (Links A) := do
  let after ← l.next ev
  let l := l.setPrev after (l.prev ev)
  let before ← l.prev ev
  let l := l.setNext before (l.next ev)
  let l := l.setNext ev none
  pure (l.setPrev ev none)

/-- A single node that is its own ring. -/
def single (l : Links A) (head : A) : Links A :=
  (l.setNext head (some head)).setPrev head (some head)

/-- Two neighbours. -/
def Adjacent (l : Links A) (a b : A) : Prop :=
  l.next a = some b ∧ l.prev b = some a

/-- The links from `a` through `xs` to `b`. -/
def Segment (l : Links A) : A → List A → A → Prop
  | a, [], b => l.Adjacent a b
  | a, x :: xs, b => l.Adjacent a x ∧ Segment l x xs b

/-- A ring with a head and its members, each once. -/
structure Ring (l : Links A) (head : A) (xs : List A) : Prop where
  segment : l.Segment head xs head
  nodup : (head :: xs).Nodup

end Links

open Links

variable {l l' : Links A} {a b x ev head : A} {xs ys zs : List A}

omit [DecidableEq A] in
theorem segment_append :
    l.Segment a (xs ++ x :: ys) b ↔ l.Segment a xs x ∧ l.Segment x ys b := by
  induction xs generalizing a with
  | nil => rfl
  | cons y xs ih =>
      rw [List.cons_append, Segment, ih, Segment, and_assoc]

omit [DecidableEq A] in
/-- A segment depends on the links of its nodes only: forward of all but the
last, backward of all but the first. -/
theorem Links.Segment.congr (hsegment : l.Segment a xs b)
    (hnext : ∀ c ∈ a :: xs, l'.next c = l.next c)
    (hprev : ∀ c ∈ xs ++ [b], l'.prev c = l.prev c) : l'.Segment a xs b := by
  induction xs generalizing a with
  | nil =>
      constructor
      · rw [hnext a List.mem_cons_self]
        exact hsegment.1
      · rw [hprev b List.mem_cons_self]
        exact hsegment.2
  | cons x xs ih =>
      obtain ⟨hadjacent, hrest⟩ := hsegment
      refine ⟨⟨?_, ?_⟩, ih hrest ?_ ?_⟩
      · rw [hnext a List.mem_cons_self]
        exact hadjacent.1
      · rw [hprev x List.mem_cons_self]
        exact hadjacent.2
      · exact fun c hc => hnext c (List.mem_cons_of_mem a hc)
      · exact fun c hc => hprev c (List.mem_cons_of_mem x hc)

omit [DecidableEq A] in
/-- The last node before the end of a segment may be followed by another
end. -/
theorem Links.Segment.redirect (hsegment : l.Segment a xs b)
    (hnodup : (a :: xs).Nodup) :
    ∃ z ∈ a :: xs, l.Adjacent z b ∧ ∀ (l' : Links A) c,
      (∀ n ∈ a :: xs, n ≠ z → l'.next n = l.next n) →
      (∀ n ∈ xs, l'.prev n = l.prev n) → l'.Adjacent z c →
      l'.Segment a xs c := by
  induction xs generalizing a with
  | nil =>
      refine ⟨a, List.mem_cons_self, hsegment, ?_⟩
      intro l' c hnext hprev hadjacent
      exact hadjacent
  | cons x xs ih =>
      obtain ⟨hfirst, hrest⟩ := hsegment
      obtain ⟨ha, hnodup⟩ := List.nodup_cons.mp hnodup
      obtain ⟨z, hz, hlast, hredirect⟩ := ih hrest hnodup
      refine ⟨z, List.mem_cons_of_mem a hz, hlast, ?_⟩
      intro l' c hnext hprev hadjacent
      have hne : a ≠ z := fun h => ha (h ▸ hz)
      refine ⟨⟨?_, ?_⟩, hredirect l' c ?_ ?_ hadjacent⟩
      · rw [hnext a List.mem_cons_self hne]
        exact hfirst.1
      · rw [hprev x List.mem_cons_self]
        exact hfirst.2
      · exact fun n hn => hnext n (List.mem_cons_of_mem a hn)
      · exact fun n hn => hprev n (List.mem_cons_of_mem x hn)

/-- The links after `ev` is linked in between `z` and `b`. -/
def Links.inserted (l : Links A) (ev z b : A) : Links A where
  next := Function.update (Function.update l.next ev (some b)) z (some ev)
  prev := Function.update (Function.update l.prev ev (some z)) b (some ev)

theorem insertBefore_eq {z : A} (hprev : l.prev b = some z) :
    l.insertBefore ev b = some (l.inserted ev z b) := by
  unfold insertBefore setNext setPrev inserted
  simp [hprev]

/-- The links after `ev`, which stood between `z` and `w`, is taken out. -/
def Links.removed (l : Links A) (ev z w : A) : Links A where
  next := Function.update (Function.update l.next z (some w)) ev none
  prev := Function.update (Function.update l.prev w (some z)) ev none

theorem remove_eq {z w : A} (hz : l.Adjacent z ev) (hw : l.Adjacent ev w)
    (hne : w ≠ ev) : l.remove ev = some (l.removed ev z w) := by
  unfold Links.remove setNext setPrev removed
  simp [hw.1, hz.2, Function.update_of_ne hne.symm]

/-- The first member of a list, or the head of the ring it ends in. -/
def start (head : A) (ys : List A) : A := ys.head?.getD head

section Places

omit [DecidableEq A]

theorem start_mem (head : A) (xs ys : List A) :
    start head ys ∈ head :: (xs ++ ys) := by
  cases ys with
  | nil => exact List.mem_cons_self
  | cons y ys => simp [start]

theorem mem_front (hz : x ∈ head :: xs) : x ∈ head :: (xs ++ ys) := by
  rw [← List.cons_append]
  exact List.mem_append_left ys hz

/-- No member in front of a place is the node at the place. -/
theorem ne_start (hnodup : (head :: (xs ++ ys)).Nodup) (hx : x ∈ xs) :
    x ≠ start head ys := by
  rintro rfl
  cases ys with
  | nil => exact (List.nodup_cons.mp hnodup).1 (List.mem_append_left [] hx)
  | cons y ys =>
      have hdisjoint := (List.nodup_append.mp (List.nodup_cons.mp hnodup).2).2.2
      exact hdisjoint _ hx y List.mem_cons_self rfl

/-- Of a ring whose links change at one place, the part in front of it. -/
theorem segment_front (hsegment : l.Segment head (xs ++ ys) head) :
    l.Segment head xs (start head ys) := by
  cases ys with
  | nil => rwa [List.append_nil] at hsegment
  | cons y ys => exact (segment_append.mp hsegment).1

/-- The part behind it. -/
theorem Links.Segment.congr_behind (hsegment : l.Segment x ys head)
    (hnodup : (head :: (xs ++ x :: ys)).Nodup) {z : A} (hz : z ∈ head :: xs)
    (hnext : ∀ n ∈ head :: (xs ++ x :: ys), n ≠ z → l'.next n = l.next n)
    (hprev : ∀ n ∈ head :: (xs ++ x :: ys), n ≠ x → l'.prev n = l.prev n) :
    l'.Segment x ys head := by
  have hdisjoint := hnodup
  rw [← List.cons_append, List.nodup_append] at hdisjoint
  obtain ⟨-, hys, hdisjoint⟩ := hdisjoint
  refine hsegment.congr ?_ ?_
  · intro n hn
    refine hnext n ?_ fun h => hdisjoint z hz n hn h.symm
    exact List.mem_cons_of_mem head (List.mem_append_right xs hn)
  · intro n hn
    rcases List.mem_append.mp hn with hn | hn
    · refine hprev n ?_ fun h => (List.nodup_cons.mp hys).1 (h ▸ hn)
      exact List.mem_cons_of_mem head
        (List.mem_append_right xs (List.mem_cons_of_mem x hn))
    · obtain rfl := List.mem_singleton.mp hn
      exact hprev n List.mem_cons_self
        (hdisjoint n List.mem_cons_self x List.mem_cons_self)

end Places

/-- A node that is in no list is linked in before a member or the head. -/
theorem Links.Ring.insertBefore (hring : l.Ring head (xs ++ ys))
    (hev : ev ∉ head :: (xs ++ ys)) :
    ∃ l', l.insertBefore ev (start head ys) = some l' ∧
      l'.Ring head (xs ++ ev :: ys) ∧
      ∀ c ∉ ev :: head :: (xs ++ ys),
        l'.next c = l.next c ∧ l'.prev c = l.prev c := by
  have hxs := (List.nodup_append.mp
    (List.cons_append ▸ hring.nodup : (head :: xs ++ ys).Nodup)).1
  obtain ⟨z, hz, hlast, hredirect⟩ :=
    (segment_front hring.segment).redirect hxs
  have hne {c : A} (hc : c ∈ head :: (xs ++ ys)) : c ≠ ev :=
    fun h => hev (h ▸ hc)
  have hzev := hne (mem_front hz)
  have hsev := hne (start_mem head xs ys)
  have hadjacent : (l.inserted ev z (start head ys)).Adjacent ev
      (start head ys) := by
    constructor
    · simp [inserted, Function.update_of_ne hzev.symm]
    · simp [inserted]
  refine ⟨l.inserted ev z (start head ys), insertBefore_eq hlast.2,
    ⟨segment_append.mpr ⟨?_, ?_⟩, ?_⟩, ?_⟩
  · refine hredirect _ ev ?_ ?_ ⟨by simp [inserted], ?_⟩
    · intro n hn hnz
      simp [inserted, hnz, hne (mem_front hn)]
    · intro n hn
      simp [inserted, ne_start hring.nodup hn,
        hne (mem_front (List.mem_cons_of_mem head hn))]
    · simp [inserted, Function.update_of_ne hsev.symm]
  · cases ys with
    | nil => exact hadjacent
    | cons y ys =>
        refine ⟨hadjacent, (segment_append.mp hring.segment).2.congr_behind
          hring.nodup hz ?_ ?_⟩
        · intro n hn hnz
          simp [inserted, hnz, hne hn]
        · intro n hn hny
          simp [inserted, start, hny, hne hn]
  · refine (List.perm_middle.cons head).nodup_iff.mpr ?_
    refine (List.Perm.swap head ev _).symm.nodup_iff.mpr ?_
    exact List.nodup_cons.mpr ⟨hev, hring.nodup⟩
  · intro c hc
    obtain ⟨hcev, hc⟩ := not_or.mp (mt List.mem_cons.mpr hc)
    have hcz : c ≠ z := fun h => hc (h ▸ mem_front hz)
    have hcs : c ≠ start head ys := fun h => hc (h ▸ start_mem head xs ys)
    simp [inserted, hcev, hcz, hcs]

/-- A member is taken out, and its links are null. -/
theorem Links.Ring.remove (hring : l.Ring head (xs ++ ev :: ys)) :
    ∃ l', l.remove ev = some l' ∧ l'.Ring head (xs ++ ys) ∧
      l'.next ev = none ∧ l'.prev ev = none ∧
      ∀ c ∉ head :: (xs ++ ev :: ys),
        l'.next c = l.next c ∧ l'.prev c = l.prev c := by
  obtain ⟨hbefore, hafter⟩ := segment_append.mp hring.segment
  have hall : (ev :: head :: (xs ++ ys)).Nodup := by
    refine (List.Perm.swap head ev _).nodup_iff.mpr ?_
    exact (List.perm_middle.cons head).nodup_iff.mp hring.nodup
  obtain ⟨hev, hnodup⟩ := List.nodup_cons.mp hall
  have hxs := (List.nodup_append.mp
    (List.cons_append ▸ hnodup : (head :: xs ++ ys).Nodup)).1
  obtain ⟨z, hz, hlast, hredirect⟩ := hbefore.redirect hxs
  have hne {c : A} (hc : c ∈ head :: (xs ++ ys)) : c ≠ ev :=
    fun h => hev (h ▸ hc)
  have hzev := hne (mem_front hz)
  have hsev := hne (start_mem head xs ys)
  have hnext : l.Adjacent ev (start head ys) := by
    cases ys with
    | nil => exact hafter
    | cons y ys => exact hafter.1
  refine ⟨l.removed ev z (start head ys), remove_eq hlast hnext hsev,
    ⟨?_, hnodup⟩, by simp [removed], by simp [removed], ?_⟩
  · have hfront : (l.removed ev z (start head ys)).Segment head xs
        (start head ys) := by
      refine hredirect _ _ ?_ ?_ ⟨?_, ?_⟩
      · intro n hn hnz
        simp [removed, hnz, hne (mem_front hn)]
      · intro n hn
        simp [removed, ne_start hnodup hn,
          hne (mem_front (List.mem_cons_of_mem head hn))]
      · simp [removed, hzev]
      · simp [removed, hsev]
    cases ys with
    | nil =>
        rw [List.append_nil]
        exact hfront
    | cons y ys =>
        refine segment_append.mpr ⟨hfront,
          hafter.2.congr_behind hnodup hz ?_ ?_⟩
        · intro n hn hnz
          simp [removed, hnz, hne hn]
        · intro n hn hny
          simp [removed, start, hny, hne hn]
  · intro c hc
    have hsub {d : A} (hd : d ∈ head :: (xs ++ ys)) :
        d ∈ head :: (xs ++ ev :: ys) := by
      simp only [List.mem_cons, List.mem_append] at hd ⊢
      tauto
    have hcev : c ≠ ev := fun h => hc (h ▸ by simp)
    have hcz : c ≠ z := fun h => hc (hsub (h ▸ mem_front hz))
    have hcs : c ≠ start head ys :=
      fun h => hc (hsub (h ▸ start_mem head xs ys))
    simp [removed, hcev, hcz, hcs]

omit [DecidableEq A] in
/-- A ring of nodes whose links are as they were. -/
theorem Links.Ring.congr (hring : l.Ring head xs)
    (hsame : ∀ c ∈ head :: xs, l'.next c = l.next c ∧ l'.prev c = l.prev c) :
    l'.Ring head xs := by
  refine ⟨hring.segment.congr (fun c hc => (hsame c hc).1) ?_, hring.nodup⟩
  intro c hc
  refine (hsame c ?_).2
  rcases List.mem_append.mp hc with hc | hc
  · exact List.mem_cons_of_mem head hc
  · exact List.mem_cons.mpr (.inl (List.mem_singleton.mp hc))

omit [DecidableEq A] in
/-- Where a ring begins. -/
theorem Links.Ring.next_head (hring : l.Ring head xs) :
    l.next head = some (start head xs) := by
  cases xs with
  | nil => exact hring.segment.1
  | cons x xs => exact hring.segment.1.1

omit [DecidableEq A] in
theorem Links.Ring.next_member (hring : l.Ring head (xs ++ x :: ys)) :
    l.next x = some (start head ys) := by
  have hrest := (segment_append.mp hring.segment).2
  cases ys with
  | nil => exact hrest.1
  | cons y ys => exact hrest.1.1

omit [DecidableEq A] in
theorem Links.Segment.unique {a b : A} {xs ys : List A}
    (hxs : l.Segment a xs b) (hys : l.Segment a ys b) (hbx : b ∉ xs)
    (hby : b ∉ ys) : xs = ys := by
  induction xs generalizing a ys with
  | nil =>
      cases ys with
      | nil => rfl
      | cons y ys =>
          have hb : b = y := Option.some.inj (hxs.1.symm.trans hys.1.1)
          exact absurd (hb ▸ List.mem_cons_self) hby
  | cons x xs ih =>
      cases ys with
      | nil =>
          have hb : b = x := Option.some.inj (hys.1.symm.trans hxs.1.1)
          exact absurd (hb ▸ List.mem_cons_self) hbx
      | cons y ys =>
          obtain rfl : x = y := Option.some.inj (hxs.1.1.symm.trans hys.1.1)
          rw [ih hxs.2 hys.2 (mt (List.mem_cons_of_mem x) hbx)
            (mt (List.mem_cons_of_mem x) hby)]

omit [DecidableEq A] in
/-- The links say which the members are. -/
theorem Links.Ring.unique {head : A} {xs ys : List A}
    (hxs : l.Ring head xs) (hys : l.Ring head ys) : xs = ys :=
  hxs.segment.unique hys.segment (List.nodup_cons.mp hxs.nodup).1
    (List.nodup_cons.mp hys.nodup).1

theorem ring_single (l : Links A) (head : A) :
    (l.single head).Ring head [] :=
  ⟨⟨by simp [single, setNext, setPrev], by simp [single, setNext, setPrev]⟩,
    List.nodup_singleton head⟩

end LinkedRing

end MetaOS
