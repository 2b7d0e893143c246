/-
hardware/ril/reference-ril/atchannel.c: the thread that reads lines until the
stream ends.  In this tree the two calls that pass a line on are commented
out.
-/
import MetaOS.AtCommand
import MetaOS.AtReader

namespace MetaOS

namespace AtChannel

open Lines

def smsUnsoliciteds : List Bytes :=
  [.ofString "+CMT:", .ofString "+CDS:", .ofString "+CBM:"]

/-- The line is the first line in (what will be) a two-line SMS unsolicited
response. -/
def isSMSUnsolicited (line : Bytes) : Bool :=
  smsUnsoliciteds.any (·.isPrefixOf line)

/-- The two ways in which a line is passed on: `s_unsolHandler (line1, line2)`
and `processLine(line)`. -/
inductive Delivery where
  | sms (line1 line2 : Bytes)
  | line (line : Bytes)
deriving DecidableEq

/-- `handled` says whether there is a handler for the end of the stream. -/
def onReaderClosed (handled : Bool) (c : Channel) : Channel :=
  if handled ∧ c.sReaderClosed = false then { c with sReaderClosed := true }
  else c

/-- The loop, with what it passes on.  No result is a loop that goes on. -/
def readerLoop (handled : Bool) : (rounds : Nat) → Input → Channel →
    Option (List Delivery × Channel)
  | 0, _, _ => none
  | rounds + 1, s, c =>
      match readline s with
      | none => none
      | some (none, _) => some ([], onReaderClosed handled c)
      | some (some line, s) =>
          if isSMSUnsolicited line then
            match readline s with
            | none => none
            | some (none, _) => some ([], onReaderClosed handled c)
            | some (some _, s) =>
                -- s_unsolHandler (line1, line2);
                readerLoop handled rounds s c
          else
            -- processLine(line);
            readerLoop handled rounds s c

/-- What the header of the channel promises of the reader thread: each line is
passed on once and in order, the first line of a message together with the
next. -/
inductive Delivers : List Bytes → List Delivery → Prop
  | nil : Delivers [] []
  | sms {line1 line2 : Bytes} {lines : List Bytes} {passed : List Delivery}
      (hsms : isSMSUnsolicited line1 = true) (hrest : Delivers lines passed) :
      Delivers (line1 :: line2 :: lines) (.sms line1 line2 :: passed)
  | line {line : Bytes} {lines : List Bytes} {passed : List Delivery}
      (hother : isSMSUnsolicited line = false)
      (hrest : Delivers lines passed) :
      Delivers (line :: lines) (.line line :: passed)

/-- These are the lines before the end of the stream. -/
def Input.Returns (s : Input) (lines : List Bytes) : Prop :=
  ∀ calls, readlines calls s = some (lines.take calls)

section Loop

variable {s : Input} {lines : List Bytes} {line : Bytes} {handled : Bool}
  {c c' : Channel} {passed : List Delivery}

theorem Input.Returns.nil (hreturns : s.Returns []) :
    ∃ s', readline s = some (none, s') := by
  have hone := hreturns 1
  rw [readlines] at hone
  split at hone
  next => cases hone
  next s' hread => exact ⟨s', hread⟩
  next line s' hread =>
    rw [readlines] at hone
    cases hone

theorem Input.Returns.cons (hreturns : s.Returns (line :: lines)) :
    ∃ s', readline s = some (some line, s') ∧ s'.Returns lines := by
  have hone := hreturns 1
  rw [readlines] at hone
  split at hone
  next => cases hone
  next => cases hone
  next first s' hread =>
    rw [readlines, List.take_succ_cons, List.take_zero] at hone
    obtain ⟨rfl, -⟩ := List.cons.inj (Option.some_inj.mp hone)
    refine ⟨s', hread, fun calls => ?_⟩
    have hmore := hreturns (calls + 1)
    rw [readlines, hread, List.take_succ_cons] at hmore
    obtain ⟨rest, hrest, hcons⟩ := Option.map_eq_some_iff.mp hmore
    rw [hrest, (List.cons.inj hcons).2]

/-- The loop ends with the stream, whatever lines came. -/
theorem readerLoop_ends (handled : Bool) (c : Channel)
    (hreturns : s.Returns lines) :
    ∃ rounds, readerLoop handled rounds s c =
      some ([], onReaderClosed handled c) := by
  induction hlength : lines.length using Nat.strong_induction_on
    generalizing s lines with
  | _ length ih =>
      cases lines with
      | nil =>
          obtain ⟨s', hread⟩ := hreturns.nil
          exact ⟨1, by rw [readerLoop, hread]⟩
      | cons line lines =>
          obtain ⟨s₁, hread, hreturns₁⟩ := hreturns.cons
          cases hsms : isSMSUnsolicited line with
          | false =>
              obtain ⟨rounds, hloop⟩ :=
                ih lines.length (by rw [← hlength]; simp) hreturns₁ rfl
              refine ⟨rounds + 1, ?_⟩
              rw [readerLoop, hread]
              simpa [hsms] using hloop
          | true =>
              cases lines with
              | nil =>
                  obtain ⟨s₂, hread₁⟩ := hreturns₁.nil
                  refine ⟨1, ?_⟩
                  rw [readerLoop, hread]
                  simp [hsms, hread₁]
              | cons line2 lines =>
                  obtain ⟨s₂, hread₁, hreturns₂⟩ := hreturns₁.cons
                  obtain ⟨rounds, hloop⟩ := ih lines.length
                    (by rw [← hlength, List.length_cons, List.length_cons]
                        omega) hreturns₂ rfl
                  refine ⟨rounds + 1, ?_⟩
                  rw [readerLoop, hread]
                  simpa [hsms, hread₁] using hloop

/-- Nothing is ever passed on, and the pending command stays as it was but for
the end of the stream. -/
theorem readerLoop_passes_nothing {rounds : Nat}
    (hloop : readerLoop handled rounds s c = some (passed, c')) :
    passed = [] ∧ c' = onReaderClosed handled c := by
  induction rounds generalizing s with
  | zero => cases hloop
  | succ rounds ih =>
      rw [readerLoop] at hloop
      split at hloop
      next => cases hloop
      next =>
        obtain ⟨rfl, rfl⟩ := Prod.mk.inj (Option.some_inj.mp hloop)
        exact ⟨rfl, rfl⟩
      next =>
        split at hloop
        next =>
          split at hloop
          next => cases hloop
          next =>
            obtain ⟨rfl, rfl⟩ := Prod.mk.inj (Option.some_inj.mp hloop)
            exact ⟨rfl, rfl⟩
          next => exact ih hloop
        next => exact ih hloop

theorem delivers_nil_iff : Delivers lines [] ↔ lines = [] := by
  constructor
  · intro hdelivers
    cases hdelivers
    rfl
  · rintro rfl
    exact .nil

end Loop

/-- The lines before the end of the stream reach their consumers exactly if
there are none. -/
theorem delivers_iff {s : Input} {lines : List Bytes}
    (hreturns : s.Returns lines) (handled : Bool) (c : Channel) :
    ∃ rounds passed c', readerLoop handled rounds s c = some (passed, c') ∧
      c'.spResponse = c.spResponse ∧
      (Delivers lines passed ↔ lines = []) := by
  obtain ⟨rounds, hloop⟩ := readerLoop_ends handled c hreturns
  refine ⟨rounds, [], _, hloop, ?_, delivers_nil_iff⟩
  unfold onReaderClosed
  split <;> rfl

namespace AtReaderLoopWitness

/-- `OK\r` -/
def answer : Bytes := [79, 75, 13]

theorem answer_clean : Clean answer where
  noNul := by decide
  noPrompt := by
    unfold NoneBegins
    decide +kernel
  fits := fits_of_length_le (by decide)

theorem answer_returns : (Input.start answer []).Returns [[79, 75]] := by
  intro calls
  rw [readlines_eq_complete answer [] calls answer_clean]
  have hlines : complete isEOL answer = [[79, 75]] := by decide +kernel
  rw [hlines]

/-- No line has come in for the command. -/
def unanswered : ATResponse := ⟨0, false, none, []⟩

/-- A command waits for its final response. -/
def waiting : Channel := ⟨.NO_RESULT, none, none, some unanswered, true, false⟩

theorem answer_not_delivered : ∃ rounds passed c',
    readerLoop true rounds (Input.start answer []) waiting =
      some (passed, c') ∧
    c'.spResponse = some unanswered ∧
    (Delivers [[79, 75]] passed ↔ ([[79, 75]] : List Bytes) = []) :=
  delivers_iff answer_returns true waiting

/-- The final response `OK` is read and dropped. -/
theorem answer_dropped : ¬ ∀ (s : Input) (lines : List Bytes) (c : Channel),
    s.Returns lines → ∃ rounds passed c',
      readerLoop true rounds s c = some (passed, c') ∧
      Delivers lines passed := by
  intro hclaim
  obtain ⟨rounds, passed, c', hloop, hdelivers⟩ := hclaim
    (Input.start answer []) [[79, 75]] waiting answer_returns
  rw [(readerLoop_passes_nothing hloop).1] at hdelivers
  cases hdelivers

end AtReaderLoopWitness

end AtChannel

end MetaOS
