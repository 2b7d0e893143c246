/-
Words with brackets: how deep the brackets are nested behind a word, and what
stands outside of all of them.  A balanced word can be cut at a symbol that
stands outside in one way only.
-/
import Mathlib.Data.List.Basic

namespace MetaOS

namespace Brackets

inductive Kind where
  | opening
  | closing
  | inner
deriving DecidableEq

variable {α : Type} (kind : α → Kind)

/-- The depth behind a word that begins at depth `d`, unless a bracket is
closed that was not opened. -/
def depth : (d : Nat) → List α → Option Nat
  | d, [] => some d
  | d, t :: w =>
      match kind t, d with
      | .opening, d => depth (d + 1) w
      | .closing, 0 => none
      | .closing, d + 1 => depth d w
      | .inner, d => depth d w

/-- The symbols at depth 0. -/
def top : (d : Nat) → List α → List α
  | _, [] => []
  | d, t :: w =>
      match kind t, d with
      | .opening, d => top (d + 1) w
      | .closing, d => top (d - 1) w
      | .inner, 0 => t :: top 0 w
      | .inner, d + 1 => top (d + 1) w

def Balanced (w : List α) : Prop := depth kind 0 w = some 0

variable {kind} {d e : Nat} {a b o p : α} {u v w x y : List α}

theorem depth_append (d : Nat) (u v : List α) :
    depth kind d (u ++ v) = (depth kind d u).bind (depth kind · v) := by
  induction u generalizing d with
  | nil => rfl
  | cons t u ih =>
      rw [List.cons_append]
      cases hkind : kind t with
      | opening => simp only [depth, hkind, ih]
      | inner => simp only [depth, hkind, ih]
      | closing =>
          cases d with
          | zero => simp only [depth, hkind, Option.bind_none]
          | succ d => simp only [depth, hkind, ih]

theorem top_append (hu : depth kind d u = some e) :
    top kind d (u ++ v) = top kind d u ++ top kind e v := by
  induction u generalizing d with
  | nil =>
      obtain rfl := Option.some.inj hu
      rfl
  | cons t u ih =>
      rw [List.cons_append]
      cases hkind : kind t with
      | opening =>
          simp only [depth, hkind] at hu
          simp only [top, hkind, ih hu]
      | closing =>
          cases d with
          | zero => simp only [depth, hkind, reduceCtorEq] at hu
          | succ d =>
              simp only [depth, hkind] at hu
              simp only [top, hkind, Nat.add_sub_cancel, ih hu]
      | inner =>
          simp only [depth, hkind] at hu
          cases d with
          | zero => simp only [top, hkind, ih hu, List.cons_append]
          | succ d => simp only [top, hkind, ih hu]

/-- Nothing of a word is outside of the brackets that are around it. -/
theorem depth_succ (hw : depth kind d w = some e) :
    depth kind (d + 1) w = some (e + 1) ∧ top kind (d + 1) w = [] := by
  induction w generalizing d with
  | nil =>
      obtain rfl := Option.some.inj hw
      exact ⟨rfl, rfl⟩
  | cons t w ih =>
      cases hkind : kind t with
      | opening =>
          simp only [depth, hkind] at hw
          simpa only [depth, top, hkind] using ih hw
      | closing =>
          cases d with
          | zero => simp only [depth, hkind, reduceCtorEq] at hw
          | succ d =>
              simp only [depth, hkind] at hw
              simpa only [depth, top, hkind, Nat.add_sub_cancel] using ih hw
      | inner =>
          simp only [depth, hkind] at hw
          simpa only [depth, top, hkind] using ih hw

theorem balanced_nil : Balanced kind [] := rfl

theorem Balanced.append (hu : Balanced kind u) (hv : Balanced kind v) :
    Balanced kind (u ++ v) := by
  rw [Balanced, depth_append, hu, Option.bind_some, hv]

theorem Balanced.of_append (hu : Balanced kind u)
    (huv : Balanced kind (u ++ v)) : Balanced kind v := by
  rwa [Balanced, depth_append, hu, Option.bind_some] at huv

theorem balanced_cons (ha : kind a = .inner) :
    Balanced kind (a :: w) ↔ Balanced kind w := by
  simp only [Balanced, depth, ha]

theorem Balanced.enclosed (hw : Balanced kind w) (ha : kind a = .opening)
    (hb : kind b = .closing) : Balanced kind (a :: w ++ [b]) := by
  have hdepth := (depth_succ hw).1
  simp only [Nat.zero_add] at hdepth
  simp only [Balanced, List.cons_append, depth, ha, depth_append,
    Nat.zero_add, hdepth, Option.bind_some, hb]

theorem Balanced.top_append (hu : Balanced kind u) :
    top kind 0 (u ++ v) = top kind 0 u ++ top kind 0 v :=
  Brackets.top_append hu

theorem top_cons (ha : kind a = .inner) :
    top kind 0 (a :: w) = a :: top kind 0 w := by
  simp only [top, ha]

theorem Balanced.top_enclosed (hw : Balanced kind w)
    (ha : kind a = .opening) (hb : kind b = .closing) :
    top kind 0 (a :: w ++ [b]) = [] := by
  obtain ⟨hdepth, htop⟩ := depth_succ hw
  simp only [List.cons_append, top, ha, Brackets.top_append hdepth, htop,
    List.nil_append, hb]

theorem Balanced.mem_top (hu : Balanced kind u) (ho : kind o = .inner) :
    o ∈ top kind 0 (u ++ o :: v) := by
  rw [hu.top_append, top_cons ho]
  exact List.mem_append_right _ List.mem_cons_self

/-- A balanced word without the stops outside of its brackets. -/
structure Closed (kind : α → Kind) (stops : List α) (w : List α) : Prop where
  balanced : Balanced kind w
  free : ∀ t ∈ stops, t ∉ top kind 0 w

variable {stops stops' : List α}

theorem closed_nil : Closed kind stops [] :=
  ⟨balanced_nil, fun _ _ => List.not_mem_nil⟩

theorem Closed.append (hu : Closed kind stops u) (hv : Closed kind stops v) :
    Closed kind stops (u ++ v) := by
  refine ⟨hu.balanced.append hv.balanced, fun t ht => ?_⟩
  rw [hu.balanced.top_append, List.mem_append, not_or]
  exact ⟨hu.free t ht, hv.free t ht⟩

theorem Closed.cons (hw : Closed kind stops w) (ha : kind a = .inner)
    (hstop : a ∉ stops) : Closed kind stops (a :: w) := by
  refine ⟨(balanced_cons ha).mpr hw.balanced, fun t ht => ?_⟩
  rw [top_cons ha, List.mem_cons, not_or]
  exact ⟨fun heq => hstop (heq ▸ ht), hw.free t ht⟩

theorem Closed.mono (hw : Closed kind stops w) (hsub : stops' ⊆ stops) :
    Closed kind stops' w :=
  ⟨hw.balanced, fun t ht => hw.free t (hsub ht)⟩

/-- Whatever is outside in a word, it is not outside of the brackets around
it. -/
theorem Balanced.closed_enclosed (hw : Balanced kind w)
    (ha : kind a = .opening) (hb : kind b = .closing) :
    Closed kind stops (a :: w ++ [b]) := by
  refine ⟨hw.enclosed ha hb, fun t _ => ?_⟩
  rw [hw.top_enclosed ha hb]
  exact List.not_mem_nil

theorem Closed.no_cut (hw : Closed kind stops (u ++ o :: v))
    (hu : Balanced kind u) (ho : kind o = .inner) : o ∉ stops :=
  fun hstop => hw.free o hstop (hu.mem_top ho)

/-- Two cuts of one word at symbols outside of all brackets are the same, if
no part of the one has the symbol of the other outside. -/
theorem cut_unique (hcut : u ++ o :: v = x ++ p :: y) (hu : Balanced kind u)
    (hx : Balanced kind x) (ho : kind o = .inner) (hp : kind p = .inner)
    (hleft : o ∉ top kind 0 x ∨ p ∉ top kind 0 v)
    (hright : p ∉ top kind 0 u ∨ o ∉ top kind 0 y) :
    u = x ∧ o = p ∧ v = y := by
  rcases List.append_eq_append_iff.mp hcut with ⟨z, rfl, hz⟩ | ⟨z, rfl, hz⟩
  · cases z with
    | nil =>
        obtain ⟨rfl, rfl⟩ := List.cons.inj hz
        exact ⟨(List.append_nil u).symm, rfl, rfl⟩
    | cons t z =>
        obtain ⟨rfl, rfl⟩ := List.cons.inj hz
        have hmid := (balanced_cons ho).mp (hu.of_append hx)
        rcases hleft with hleft | hleft
        · exact absurd (hu.mem_top ho) hleft
        · exact absurd (hmid.mem_top hp) hleft
  · cases z with
    | nil =>
        obtain ⟨rfl, rfl⟩ := List.cons.inj hz
        exact ⟨List.append_nil x, rfl, rfl⟩
    | cons t z =>
        obtain ⟨rfl, rfl⟩ := List.cons.inj hz
        have hmid := (balanced_cons hp).mp (hx.of_append hu)
        rcases hright with hright | hright
        · exact absurd (hx.mem_top hp) hright
        · exact absurd (hmid.mem_top ho) hright

end Brackets

end MetaOS
