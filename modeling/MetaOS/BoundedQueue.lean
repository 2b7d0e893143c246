/-
A queue of limited length, and the histories it allows: what comes first is
taken first, nothing is taken twice, and nothing is turned away while there is
room.
-/
import Mathlib.Data.List.Basic
import Mathlib.Order.Basic

namespace MetaOS

namespace BoundedQueue

variable {K : Type}

/-- What can happen to a queue. -/
inductive Op (K : Type) where
  | put (k : K)
  | drop (k : K)
  | take (k : K)
  | clear
  deriving DecidableEq

/-- The queue after an operation, if it is allowed. -/
def apply [DecidableEq K] (cap : Nat) : List K → Op K → Option (List K)
  | queue, .put k => if queue.length < cap then some (queue ++ [k]) else none
  | queue, .drop _ => if cap ≤ queue.length then some queue else none
  | k :: queue, .take k' => if k' = k then some queue else none
  | [], .take _ => none
  | _, .clear => some []

/-- The queue after a history. -/
def replay [DecidableEq K] (cap : Nat) :
    List K → List (Op K) → Option (List K)
  | queue, [] => some queue
  | queue, op :: ops => (apply cap queue op).bind fun queue =>
      replay cap queue ops

/-- What is to be put into the queue, in order. -/
def offered : List (Op K) → List K
  | [] => []
  | .put k :: ops | .drop k :: ops => k :: offered ops
  | _ :: ops => offered ops

/-- What has been put into the queue. -/
def accepted : List (Op K) → List K
  | [] => []
  | .put k :: ops => k :: accepted ops
  | _ :: ops => accepted ops

/-- What has been taken from the queue. -/
def taken : List (Op K) → List K
  | [] => []
  | .take k :: ops => k :: taken ops
  | _ :: ops => taken ops

@[simp] theorem offered_append (ops ops' : List (Op K)) :
    offered (ops ++ ops') = offered ops ++ offered ops' := by
  induction ops with
  | nil => rfl
  | cons op ops ih =>
      cases op with
      | put k => exact congrArg (k :: ·) ih
      | drop k => exact congrArg (k :: ·) ih
      | take k => exact ih
      | clear => exact ih

variable [DecidableEq K] {cap : Nat} {queue queue' : List K}
  {ops : List (Op K)}

theorem apply_put {k : K} : apply cap queue (.put k) = some queue' ↔
    queue.length < cap ∧ queue ++ [k] = queue' := by
  rw [apply, Option.ite_none_right_eq_some, Option.some_inj]

theorem apply_drop {k : K} : apply cap queue (.drop k) = some queue' ↔
    cap ≤ queue.length ∧ queue = queue' := by
  rw [apply, Option.ite_none_right_eq_some, Option.some_inj]

theorem apply_take {k : K} : apply cap queue (.take k) = some queue' ↔
    queue = k :: queue' := by
  cases queue with
  | nil => simp [apply]
  | cons first queue =>
      rw [apply, Option.ite_none_right_eq_some, Option.some_inj,
        List.cons.injEq, eq_comm]

theorem replay_append (ops' : List (Op K)) :
    replay cap queue (ops ++ ops') =
      (replay cap queue ops).bind fun queue => replay cap queue ops' := by
  induction ops generalizing queue with
  | nil => rfl
  | cons op ops ih =>
      rw [List.cons_append, replay, replay]
      cases apply cap queue op with
      | none => rfl
      | some next => exact ih

/-- One more operation. -/
theorem replay_snoc {op : Op K} {next : List K}
    (hreplay : replay cap queue ops = some queue')
    (happly : apply cap queue' op = some next) :
    replay cap queue (ops ++ [op]) = some next := by
  rw [replay_append, hreplay, Option.bind_some, replay, happly]
  rfl

/-- First come, first served: what has been taken and what is left are what was
put in, in its order, except for what has been cleared. -/
theorem taken_sublist (hreplay : replay cap queue ops = some queue') :
    (taken ops ++ queue').Sublist (queue ++ accepted ops) := by
  induction ops generalizing queue with
  | nil =>
      cases hreplay
      rw [accepted, List.append_nil]
      exact List.Sublist.refl _
  | cons op ops ih =>
      obtain ⟨next, happly, hrest⟩ := Option.bind_eq_some_iff.mp hreplay
      have hnext := ih hrest
      cases op with
      | put k =>
          obtain ⟨-, rfl⟩ := apply_put.mp happly
          rw [List.append_assoc] at hnext
          exact hnext
      | drop k =>
          obtain ⟨-, rfl⟩ := apply_drop.mp happly
          exact hnext
      | take k =>
          rw [apply_take.mp happly]
          exact hnext.cons_cons k
      | clear =>
          cases happly
          exact hnext.trans (List.sublist_append_right _ _)

/-- Nothing is lost from a queue that is never cleared. -/
theorem taken_append (hclear : Op.clear ∉ ops)
    (hreplay : replay cap queue ops = some queue') :
    taken ops ++ queue' = queue ++ accepted ops := by
  induction ops generalizing queue with
  | nil =>
      cases hreplay
      rw [accepted, List.append_nil]
      rfl
  | cons op ops ih =>
      obtain ⟨hop, hclear⟩ := not_or.mp (List.mem_cons.not.mp hclear)
      obtain ⟨next, happly, hrest⟩ := Option.bind_eq_some_iff.mp hreplay
      have hnext := ih hclear hrest
      cases op with
      | put k =>
          obtain ⟨-, rfl⟩ := apply_put.mp happly
          rw [List.append_assoc] at hnext
          exact hnext
      | drop k =>
          obtain ⟨-, rfl⟩ := apply_drop.mp happly
          exact hnext
      | take k =>
          rw [apply_take.mp happly]
          exact congrArg (k :: ·) hnext
      | clear => exact absurd rfl hop

end BoundedQueue

end MetaOS
