/-
Linear probing on a ring of `n` positions.  A search starts at its home and
moves on by one position at a time until it meets one where it may stop.
-/
import Mathlib.Tactic

namespace MetaOS

namespace Probing

/-- Move on from `i`, at most `rounds` times, to a position where `stop`
holds. -/
def probe (next : Nat → Nat) (stop : Nat → Bool) :
    (rounds i : Nat) → Option Nat
  | 0, _ => none
  | rounds + 1, i =>
      if stop i then some i else probe next stop rounds (next i)

/-- The same with the number of moves, which starts at `moves`. -/
def probeMoves (next : Nat → Nat) (stop : Nat → Bool) :
    (rounds moves i : Nat) → Option (Nat × Nat)
  | 0, _, _ => none
  | rounds + 1, moves, i =>
      if stop i then some (i, moves)
      else probeMoves next stop rounds (moves + 1) (next i)

/-- `i` comes after its home behind nothing but busy positions. -/
def Path (n : Nat) (busy : Nat → Prop) (home i : Nat) : Prop :=
  ∃ d < n, i = (home + d) % n ∧ ∀ e < d, busy ((home + e) % n)

variable {n : Nat} {next : Nat → Nat} {stop : Nat → Bool} {busy : Nat → Prop}

theorem Path.mono {busy' : Nat → Prop} {home i : Nat}
    (hpath : Path n busy home i) (hbusy : ∀ j, busy j → busy' j) :
    Path n busy' home i := by
  rcases hpath with ⟨d, hd, rfl, hbefore⟩
  exact ⟨d, hd, rfl, fun e he => hbusy _ (hbefore e he)⟩

theorem probeMoves_fst (rounds moves i : Nat) :
    (probeMoves next stop rounds moves i).map Prod.fst =
      probe next stop rounds i := by
  induction rounds generalizing moves i with
  | zero => rfl
  | succ rounds ih =>
      rw [probeMoves, probe]
      split
      · rfl
      · exact ih (moves + 1) (next i)

/-- The search stops at the first position where it may. -/
theorem probe_first
    (hnext : ∀ i < n, stop i = false → next i = (i + 1) % n) {home : Nat}
    (d rounds : Nat) (hd : d < rounds) (hstop : stop ((home + d) % n) = true)
    (hbefore : ∀ e < d, stop ((home + e) % n) = false) (hn : 0 < n) :
    probe next stop rounds (home % n) = some ((home + d) % n) := by
  induction d generalizing home rounds with
  | zero =>
      obtain ⟨rounds, rfl⟩ :=
        Nat.exists_eq_succ_of_ne_zero (by omega : rounds ≠ 0)
      simp_all [probe]
  | succ d ih =>
      obtain ⟨rounds, rfl⟩ :=
        Nat.exists_eq_succ_of_ne_zero (by omega : rounds ≠ 0)
      have hhere : stop (home % n) = false := by
        simpa using hbefore 0 (by omega)
      have hmove : next (home % n) = (home + 1) % n := by
        rw [hnext _ (Nat.mod_lt _ hn) hhere, Nat.mod_add_mod]
      have hshift : ∀ e, home + 1 + e = home + (e + 1) := by omega
      rw [probe, hhere, hmove]
      simp only [Bool.false_eq_true, if_false]
      rw [ih rounds (by omega) (by rw [hshift]; exact hstop)
        (fun e he => by rw [hshift]; exact hbefore (e + 1) (by omega)), hshift]

/-- Where some position lets the search stop, it stops at the first such
position on its way. -/
theorem exists_probe (next : Nat → Nat) (stop : Nat → Bool)
    (hnext : ∀ i < n, stop i = false → next i = (i + 1) % n) (home : Nat)
    {i : Nat} (hi : i < n) (hstop : stop i = true) {rounds : Nat}
    (hrounds : n ≤ rounds) :
    ∃ d < n, probe next stop rounds (home % n) = some ((home + d) % n) ∧
      stop ((home + d) % n) = true ∧
      ∀ e < d, stop ((home + e) % n) = false := by
  have hn : 0 < n := by omega
  -- Going round once from the home meets every position.
  have hmeets : ∃ d, d < n ∧ stop ((home + d) % n) = true := by
    refine ⟨(i + (n - home % n)) % n, Nat.mod_lt _ hn, ?_⟩
    have hhome : home % n < n := Nat.mod_lt _ hn
    have hback : (home + (i + (n - home % n)) % n) % n = i := by
      rw [Nat.add_mod_mod, ← Nat.mod_add_mod,
        show home % n + (i + (n - home % n)) = i + n by omega,
        Nat.add_mod_right, Nat.mod_eq_of_lt hi]
    rw [hback]
    exact hstop
  classical
  refine ⟨Nat.find hmeets, (Nat.find_spec hmeets).1, ?_,
    (Nat.find_spec hmeets).2, ?_⟩
  · refine probe_first hnext _ rounds
      ((Nat.find_spec hmeets).1.trans_le hrounds) (Nat.find_spec hmeets).2 ?_ hn
    intro e he
    have hnot := Nat.find_min hmeets he
    have hlt : e < n := he.trans (Nat.find_spec hmeets).1
    simpa [hlt] using hnot
  · intro e he
    have hnot := Nat.find_min hmeets he
    have hlt : e < n := he.trans (Nat.find_spec hmeets).1
    simpa [hlt] using hnot

end Probing

end MetaOS
