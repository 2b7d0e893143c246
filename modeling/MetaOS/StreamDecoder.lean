/-
Decoders that are called again and again: each call takes input, gives output
and reports how the stream stands.  `fill` is the loop around them that asks
for a fixed number of bytes, `drain` the one that goes on until the stream
ends.  `Decoder.Laws` is what such a library documents; the lemmas say what
the loops do in terms of the data a stream holds.
-/
import MetaOS.ByteString

namespace MetaOS

inductive Decoder.Status where
  | ok
  | streamEnd
  | error (code : Int)
deriving DecidableEq, Repr

/-- What one call reports and does. -/
structure Decoder.Step (State : Type) where
  status : Decoder.Status
  taken : Nat
  output : Bytes
  next : State

/-- A library's decoder.  A call takes a part of the input and uses a part of
the room. -/
structure Decoder where
  State : Type
  init : State
  decompress : State → Bytes → (room : Nat) → Decoder.Step State
  taken_le : ∀ state input room,
    (decompress state input room).taken ≤ input.length
  output_le : ∀ state input room,
    (decompress state input room).output.length ≤ room

namespace Decoder

/-- What a stream holds from a state on, and how it ends.  A stream is closed
if the decoder answers a request for more than its data with an error, because
it found the end of the stream or a fault in it; it is open if its input ends
before that.  Then there is nothing to report and nothing to do. -/
structure Laws (lib : Decoder) where
  data : lib.State → Bytes → Bytes
  closed : lib.State → Bytes → Bool
  ok_step : ∀ {state input room}, 0 < room →
    (lib.decompress state input room).status = .ok →
    data state input = (lib.decompress state input room).output ++
        data (lib.decompress state input room).next
          (input.drop (lib.decompress state input room).taken) ∧
      closed state input = closed (lib.decompress state input room).next
        (input.drop (lib.decompress state input room).taken)
  end_step : ∀ {state input room}, 0 < room →
    (lib.decompress state input room).status = .streamEnd →
    data state input = (lib.decompress state input room).output ∧
      data (lib.decompress state input room).next
        (input.drop (lib.decompress state input room).taken) = [] ∧
      closed state input = true ∧
      closed (lib.decompress state input room).next
        (input.drop (lib.decompress state input room).taken) = true
  error_step : ∀ {state input room code}, 0 < room →
    (lib.decompress state input room).status = .error code →
    (data state input).length < room ∧ closed state input = true
  /-- A call makes progress while there is input. -/
  progress : ∀ {state input room}, 0 < room → input ≠ [] →
    (lib.decompress state input room).status = .ok →
    0 < (lib.decompress state input room).taken ∨
      (lib.decompress state input room).output ≠ []
  /-- Without progress, the input has ended before the stream. -/
  exhausted : ∀ {state room}, 0 < room →
    (lib.decompress state [] room).status = .ok →
    (lib.decompress state [] room).output = [] →
    data state [] = [] ∧ closed state [] = false
  /-- There is nothing to ask for after the end. -/
  after_end : ∀ {state input room}, 0 < room →
    (lib.decompress state input room).status = .streamEnd →
    ∀ {room'}, 0 < room' → ∃ code, (lib.decompress
      (lib.decompress state input room).next
      (input.drop (lib.decompress state input room).taken) room').status =
        .error code

/-- Where the loop stands: whether it is over and went well, what it has
produced and taken, and the decoder's state. -/
structure Filled (State : Type) where
  done : Option Bool
  output : Bytes
  taken : Nat
  next : State

/-- Call the decoder until `room` bytes are there. -/
def fill (lib : Decoder) : (fuel : Nat) → lib.State → Bytes → (room : Nat) →
    Filled lib.State
  | 0, state, _, room => ⟨if room = 0 then some true else none, [], 0, state⟩
  | fuel + 1, state, input, room =>
      if room = 0 then ⟨some true, [], 0, state⟩
      else
        let step := lib.decompress state input room
        match step.status with
        | .error _ => ⟨some false, step.output, step.taken, step.next⟩
        | _ =>
            let rest := fill lib fuel step.next (input.drop step.taken)
              (room - step.output.length)
            ⟨rest.done, step.output ++ rest.output, step.taken + rest.taken,
              rest.next⟩

variable {lib : Decoder}

theorem fill_zero (fuel : Nat) (state : lib.State) (input : Bytes) :
    lib.fill fuel state input 0 = ⟨some true, [], 0, state⟩ := by
  cases fuel <;> rfl

theorem fill_error {fuel room : Nat} {state : lib.State} {input : Bytes}
    {code : Int} (hroom : 0 < room)
    (herror : (lib.decompress state input room).status = .error code) :
    (lib.fill (fuel + 1) state input room).done = some false := by
  rw [fill, if_neg hroom.ne']
  simp only [herror]

theorem fill_next {fuel room : Nat} {state : lib.State} {input : Bytes}
    (hroom : 0 < room)
    (hgood : ∀ code, (lib.decompress state input room).status ≠ .error code) :
    lib.fill (fuel + 1) state input room =
      ⟨(lib.fill fuel (lib.decompress state input room).next
          (input.drop (lib.decompress state input room).taken)
          (room - (lib.decompress state input room).output.length)).done,
        (lib.decompress state input room).output ++
          (lib.fill fuel (lib.decompress state input room).next
            (input.drop (lib.decompress state input room).taken)
            (room - (lib.decompress state input room).output.length)).output,
        (lib.decompress state input room).taken +
          (lib.fill fuel (lib.decompress state input room).next
            (input.drop (lib.decompress state input room).taken)
            (room - (lib.decompress state input room).output.length)).taken,
        (lib.fill fuel (lib.decompress state input room).next
          (input.drop (lib.decompress state input room).taken)
          (room - (lib.decompress state input room).output.length)).next⟩ := by
  rw [fill, if_neg hroom.ne']
  cases hstatus : (lib.decompress state input room).status with
  | error code => exact absurd hstatus (hgood code)
  | ok => simp only [hstatus]
  | streamEnd => simp only [hstatus]

/-- All of the output is within the room, and all that is taken is input. -/
theorem fill_le (fuel room : Nat) (state : lib.State) (input : Bytes) :
    (lib.fill fuel state input room).output.length ≤ room ∧
      (lib.fill fuel state input room).taken ≤ input.length := by
  induction fuel generalizing state input room with
  | zero => exact ⟨Nat.zero_le _, Nat.zero_le _⟩
  | succ fuel ih =>
      rw [fill]
      have houtput := lib.output_le state input room
      have htaken := lib.taken_le state input room
      split
      · exact ⟨Nat.zero_le _, Nat.zero_le _⟩
      · dsimp only
        split
        · exact ⟨houtput, htaken⟩
        · obtain ⟨houtputs, htakens⟩ := ih (room -
            (lib.decompress state input room).output.length)
            (lib.decompress state input room).next
            (input.drop (lib.decompress state input room).taken)
          rw [List.length_drop] at htakens
          rw [List.length_append]
          dsimp only
          omega

theorem fill_output_le (fuel room : Nat) (state : lib.State) (input : Bytes) :
    (lib.fill fuel state input room).output.length ≤ room :=
  (fill_le fuel room state input).1

theorem fill_taken_le (fuel room : Nat) (state : lib.State) (input : Bytes) :
    (lib.fill fuel state input room).taken ≤ input.length :=
  (fill_le fuel room state input).2

/-- Call the decoder until the stream ends, whatever it reports, with a buffer
that is doubled when it is full.  The result is all of the output and how much
input was taken. -/
def drain (lib : Decoder) : (fuel : Nat) → lib.State → Bytes →
    (allocated : Nat) → (out : Bytes) → Option (Bytes × Nat)
  | 0, _, _, _, _ => none
  | fuel + 1, state, input, allocated, out =>
      let step := lib.decompress state input (allocated - out.length)
      let out := out ++ step.output
      let allocated := if out.length = allocated then 2 * allocated
        else allocated
      if step.status = .streamEnd then some (out, step.taken)
      else
        (lib.drain fuel step.next (input.drop step.taken) allocated out).map
          fun (out, taken) => (out, step.taken + taken)

/-- Some sequence of calls decodes a stream: the data, and how much of the
input it took. -/
inductive Decodes (lib : Decoder) :
    lib.State → Bytes → (data : Bytes) → (taken : Nat) → Prop
  | last {state : lib.State} {input : Bytes} (room : Nat)
      (hend : (lib.decompress state input room).status = .streamEnd) :
      Decodes lib state input (lib.decompress state input room).output
        (lib.decompress state input room).taken
  | more {state : lib.State} {input data : Bytes} {taken : Nat} (room : Nat)
      (hrest : Decodes lib (lib.decompress state input room).next
        (input.drop (lib.decompress state input room).taken) data taken) :
      Decodes lib state input
        ((lib.decompress state input room).output ++ data)
        ((lib.decompress state input room).taken + taken)

/-- Some sequence of calls decodes a stream at the front of the input, each
call being given a piece of what is left. -/
inductive Unpacks (lib : Decoder) : lib.State → Bytes → (data : Bytes) → Prop
  | last {state : lib.State} {piece rest : Bytes} (room : Nat)
      (hend : (lib.decompress state piece room).status = .streamEnd) :
      Unpacks lib state (piece ++ rest)
        (lib.decompress state piece room).output
  | more {state : lib.State} {piece rest data : Bytes} (room : Nat)
      (hok : (lib.decompress state piece room).status = .ok)
      (hrest : Unpacks lib (lib.decompress state piece room).next
        (piece.drop (lib.decompress state piece room).taken ++ rest) data) :
      Unpacks lib state (piece ++ rest)
        ((lib.decompress state piece room).output ++ data)

section Drain

variable {fuel allocated taken : Nat} {state : lib.State}
  {input out result : Bytes}

/-- More fuel does not change what the loop gives. -/
theorem drain_mono {more : Nat} (hmore : fuel ≤ more) {result : Bytes × Nat}
    (hdrain : lib.drain fuel state input allocated out = some result) :
    lib.drain more state input allocated out = some result := by
  induction fuel generalizing more state input allocated out result with
  | zero => cases hdrain
  | succ fuel ih =>
      obtain ⟨more, rfl⟩ : ∃ count, more = count + 1 :=
        ⟨more - 1, by omega⟩
      rw [drain] at hdrain ⊢
      dsimp only at hdrain ⊢
      split at hdrain
      next hend => rw [if_pos hend, hdrain]
      next hend =>
        obtain ⟨rest, hrest, rfl⟩ := Option.map_eq_some_iff.mp hdrain
        rw [if_neg hend, ih (Nat.le_of_succ_le_succ hmore) hrest]
        rfl

/-- The loop gives one result. -/
theorem drain_unique {other : Nat} {first second : Bytes × Nat}
    (hfirst : lib.drain fuel state input allocated out = some first)
    (hsecond : lib.drain other state input allocated out = some second) :
    first = second := by
  have hfirst' := drain_mono (Nat.le_max_left fuel other) hfirst
  have hsecond' := drain_mono (Nat.le_max_right fuel other) hsecond
  rw [hfirst'] at hsecond'
  exact Option.some_inj.mp hsecond'

theorem drain_taken_le
    (hdrain : lib.drain fuel state input allocated out =
      some (result, taken)) : taken ≤ input.length := by
  induction fuel generalizing state input allocated out taken with
  | zero => cases hdrain
  | succ fuel ih =>
      have hstep := lib.taken_le state input (allocated - out.length)
      rw [drain] at hdrain
      dsimp only at hdrain
      split at hdrain
      · cases hdrain
        exact hstep
      · obtain ⟨⟨data, left⟩, hrest, heq⟩ := Option.map_eq_some_iff.mp hdrain
        cases heq
        have hbound := ih hrest
        rw [List.length_drop] at hbound
        omega

/-- What the loop gives is what the stream decodes to. -/
theorem drain_decodes
    (hdrain : lib.drain fuel state input allocated out =
      some (result, taken)) :
    ∃ data, result = out ++ data ∧
      lib.Decodes state input data taken := by
  induction fuel generalizing state input allocated out taken with
  | zero => cases hdrain
  | succ fuel ih =>
      rw [drain] at hdrain
      dsimp only at hdrain
      split at hdrain
      next hend =>
        cases hdrain
        exact ⟨_, rfl, Decodes.last _ hend⟩
      next hend =>
        obtain ⟨⟨final, left⟩, hrest, heq⟩ :=
          Option.map_eq_some_iff.mp hdrain
        cases heq
        obtain ⟨data, rfl, hdecodes⟩ := ih hrest
        exact ⟨_, List.append_assoc _ _ _, Decodes.more _ hdecodes⟩

end Drain

namespace Laws

variable (laws : lib.Laws) {state : lib.State} {input : Bytes} {room : Nat}

/-- A call that goes well uses up input or room, unless the stream is open and
has nothing left. -/
theorem uses_up (hroom : 0 < room)
    (hok : (lib.decompress state input room).status = .ok)
    (hmore : room ≤ (laws.data state input).length ∨
      laws.closed state input = true) :
    (input.drop (lib.decompress state input room).taken).length +
        (room - (lib.decompress state input room).output.length) <
      input.length + room := by
  have htaken := lib.taken_le state input room
  have houtput := lib.output_le state input room
  have huse : 0 < (lib.decompress state input room).taken ∨
      (lib.decompress state input room).output ≠ [] := by
    by_cases hinput : input = []
    · subst hinput
      by_contra hnone
      push Not at hnone
      obtain ⟨hdata, hopen⟩ := laws.exhausted hroom hok hnone.2
      rcases hmore with hlong | hclosed
      · rw [hdata, List.length_nil] at hlong
        omega
      · rw [hopen] at hclosed
        cases hclosed
    · exact laws.progress hroom hinput hok
  rw [List.length_drop]
  rcases huse with htook | hgave
  · omega
  · have hpos := List.length_pos_iff.mpr hgave
    omega

/-- When the loop ends well, it got what the stream holds. -/
theorem fill_true {fuel : Nat}
    (hdone : (lib.fill fuel state input room).done = some true) :
    room ≤ (laws.data state input).length ∧
      (lib.fill fuel state input room).output =
        (laws.data state input).take room ∧
      laws.data (lib.fill fuel state input room).next
          (input.drop (lib.fill fuel state input room).taken) =
        (laws.data state input).drop room ∧
      laws.closed (lib.fill fuel state input room).next
          (input.drop (lib.fill fuel state input room).taken) =
        laws.closed state input := by
  induction fuel generalizing state input room with
  | zero =>
      have hzero : room = 0 := by
        by_contra hroom
        rw [fill, if_neg hroom] at hdone
        cases hdone
      subst hzero
      simp [fill_zero]
  | succ fuel ih =>
      rcases Nat.eq_zero_or_pos room with rfl | hroom
      · simp [fill_zero]
      · have houtput := lib.output_le state input room
        cases hstatus : (lib.decompress state input room).status with
        | error code =>
            rw [fill_error hroom hstatus] at hdone
            cases hdone
        | streamEnd =>
            rw [fill_next hroom (by simp [hstatus])] at hdone ⊢
            obtain ⟨hdata, hnext, hclosed, hclosed'⟩ :=
              laws.end_step hroom hstatus
            obtain ⟨hrest, hout, hleft, hsame⟩ := ih hdone
            rw [hnext, List.length_nil] at hrest
            have hfull : (lib.decompress state input room).output.length =
                room := by omega
            rw [hnext] at hout hleft
            dsimp only
            refine ⟨?_, ?_, ?_, ?_⟩
            · rw [hdata, hfull]
            · rw [hout, List.take_nil, List.append_nil, hdata,
                List.take_of_length_le hfull.le]
            · rw [← List.drop_drop, hleft, List.drop_nil, hdata,
                List.drop_of_length_le hfull.le]
            · rw [← List.drop_drop, hsame, hclosed, hclosed']
        | ok =>
            rw [fill_next hroom (by simp [hstatus])] at hdone ⊢
            obtain ⟨hdata, hclosed⟩ := laws.ok_step hroom hstatus
            obtain ⟨hrest, hout, hleft, hsame⟩ := ih hdone
            dsimp only
            refine ⟨?_, ?_, ?_, ?_⟩
            · rw [hdata, List.length_append]
              omega
            · rw [hout, hdata, List.take_append,
                List.take_of_length_le houtput]
            · rw [← List.drop_drop, hleft, hdata, List.drop_append,
                List.drop_of_length_le houtput, List.nil_append]
            · rw [← List.drop_drop, hsame, hclosed]

/-- When the loop fails, it was asked for more than a closed stream holds. -/
theorem fill_false {fuel : Nat}
    (hdone : (lib.fill fuel state input room).done = some false) :
    (laws.data state input).length < room ∧
      laws.closed state input = true := by
  induction fuel generalizing state input room with
  | zero =>
      rw [fill] at hdone
      split at hdone <;> simp at hdone
  | succ fuel ih =>
      rcases Nat.eq_zero_or_pos room with rfl | hroom
      · simp [fill_zero] at hdone
      · have houtput := lib.output_le state input room
        cases hstatus : (lib.decompress state input room).status with
        | error code => exact laws.error_step hroom hstatus
        | streamEnd =>
            rw [fill_next hroom (by simp [hstatus])] at hdone
            obtain ⟨hdata, hnext, hclosed, -⟩ := laws.end_step hroom hstatus
            obtain ⟨hshort, -⟩ := ih hdone
            rw [hnext, List.length_nil] at hshort
            exact ⟨by rw [hdata]; omega, hclosed⟩
        | ok =>
            rw [fill_next hroom (by simp [hstatus])] at hdone
            obtain ⟨hdata, hsame⟩ := laws.ok_step hroom hstatus
            obtain ⟨hshort, hclosed⟩ := ih hdone
            refine ⟨?_, hsame.trans hclosed⟩
            rw [hdata, List.length_append]
            omega

/-- The loop ends if the stream holds what is asked for or is closed. -/
theorem fill_ends {fuel : Nat} (hfuel : input.length + room < fuel)
    (hmore : room ≤ (laws.data state input).length ∨
      laws.closed state input = true) :
    (lib.fill fuel state input room).done ≠ none := by
  induction fuel generalizing state input room with
  | zero => omega
  | succ fuel ih =>
      rcases Nat.eq_zero_or_pos room with rfl | hroom
      · simp [fill_zero]
      · have houtput := lib.output_le state input room
        cases hstatus : (lib.decompress state input room).status with
        | error code => simp [fill_error hroom hstatus]
        | streamEnd =>
            rw [fill_next hroom (by simp [hstatus])]
            by_cases hfull : (lib.decompress state input room).output.length =
                room
            · simp [hfull, fill_zero]
            · obtain ⟨fuel, rfl⟩ : ∃ fuel', fuel = fuel' + 1 :=
                ⟨fuel - 1, by omega⟩
              have hleft : 0 < room -
                  (lib.decompress state input room).output.length := by omega
              obtain ⟨code, herror⟩ := laws.after_end hroom hstatus hleft
              simp [fill_error hleft herror]
        | ok =>
            rw [fill_next hroom (by simp [hstatus])]
            have hless := laws.uses_up hroom hstatus hmore
            obtain ⟨hdata, hsame⟩ := laws.ok_step hroom hstatus
            refine ih (by omega) (hmore.imp (fun hlong => ?_) fun hclosed => ?_)
            · rw [hdata, List.length_append] at hlong
              omega
            · rw [← hsame, hclosed]

end Laws

/-- What stands at the front of an input. -/
inductive Front where
  | stream (data : Bytes) (length : Nat)
  | fault
  | incomplete
deriving DecidableEq, Repr

/-- A format, by what stands at the front of an input. -/
structure Format where
  front : Bytes → Front
  nil_incomplete : front [] = .incomplete
  stream_length : ∀ {input data length}, front input = .stream data length →
    0 < length ∧ length ≤ input.length

/-- Hand out a part of the data that is there. -/
def handOut (taken : Nat) (data : Bytes) (room : Nat) : Step (Option Bytes) :=
  ⟨if data.length ≤ room then .streamEnd else .ok, taken, data.take room,
    some (data.drop room)⟩

/-- The stream is decoded on the first call; later calls hand out the rest. -/
def ofFormat (format : Format) : Decoder where
  State := Option Bytes
  init := none
  decompress state input room :=
    match state with
    | some [] => ⟨.error (-1), 0, [], some []⟩
    | some rest => handOut 0 rest room
    | none =>
        match format.front input with
        | .stream data length => handOut length data room
        | .fault => ⟨.error (-5), 0, [], none⟩
        | .incomplete => ⟨.ok, input.length, [], none⟩
  taken_le := by
    intro state input room
    rcases state with - | - | ⟨b, rest⟩
    · cases hfront : format.front input with
      | stream data length => exact (format.stream_length hfront).2
      | fault => exact Nat.zero_le _
      | incomplete => exact le_rfl
    · exact Nat.zero_le _
    · exact Nat.zero_le _
  output_le := by
    intro state input room
    rcases state with - | - | ⟨b, rest⟩
    · cases hfront : format.front input with
      | stream data length => exact List.length_take_le room data
      | fault => exact Nat.zero_le _
      | incomplete => exact Nat.zero_le _
    · exact Nat.zero_le _
    · exact List.length_take_le room (b :: rest)

namespace Format

variable (format : Format)

/-- What a state and its input hold. -/
def data : Option Bytes → Bytes → Bytes
  | some rest, _ => rest
  | none, input =>
      match format.front input with
      | .stream data _ => data
      | _ => []

def closed : Option Bytes → Bytes → Bool
  | some _, _ => true
  | none, input => format.front input != .incomplete

theorem handOut_ok {taken room : Nat} {data : Bytes}
    (hok : (handOut taken data room).status = .ok) : room < data.length := by
  by_contra hshort
  rw [handOut, if_pos (not_lt.mp hshort)] at hok
  cases hok

theorem handOut_end {taken room : Nat} {data : Bytes}
    (hend : (handOut taken data room).status = .streamEnd) :
    data.length ≤ room := by
  by_contra hlong
  rw [handOut, if_neg hlong] at hend
  cases hend

theorem handOut_not_error {taken room : Nat} {data : Bytes} {code : Int} :
    (handOut taken data room).status ≠ .error code := by
  rw [handOut]
  split <;> simp

/-- How a call can go. -/
theorem decompress_cases (state : Option Bytes) (input : Bytes) (room : Nat) :
    (∃ code next, (ofFormat format).decompress state input room =
        ⟨.error code, 0, [], next⟩ ∧ format.data state input = [] ∧
          format.closed state input = true) ∨
      (state = none ∧ format.front input = .incomplete ∧
        (ofFormat format).decompress state input room =
          ⟨.ok, input.length, [], none⟩) ∨
      ∃ taken data, (0 < taken ∨ data ≠ []) ∧
        (ofFormat format).decompress state input room =
          handOut taken data room ∧ format.data state input = data ∧
          format.closed state input = true := by
  rcases state with - | - | ⟨b, rest⟩
  · cases hfront : format.front input with
    | stream data length =>
        refine Or.inr (Or.inr ⟨length, data,
          Or.inl (format.stream_length hfront).1, ?_, ?_, ?_⟩)
        · simp only [ofFormat, hfront]
        · simp only [Format.data, hfront]
        · simp [Format.closed, hfront]
    | fault =>
        refine Or.inl ⟨-5, none, ?_, ?_, ?_⟩
        · simp only [ofFormat, hfront]
        · simp only [Format.data, hfront]
        · simp [Format.closed, hfront]
    | incomplete =>
        refine Or.inr (Or.inl ⟨rfl, rfl, ?_⟩)
        simp only [ofFormat, hfront]
  · exact Or.inl ⟨-1, some [], rfl, rfl, rfl⟩
  · exact Or.inr (Or.inr ⟨0, b :: rest, Or.inr (by simp), rfl, rfl, rfl⟩)

theorem data_nil : format.data none [] = [] := by
  simp [data, format.nil_incomplete]

theorem closed_nil : format.closed none [] = false := by
  simp [closed, format.nil_incomplete]

/-- Such a decoder keeps the laws. -/
def laws : (ofFormat format).Laws where
  data := format.data
  closed := format.closed
  ok_step := by
    intro state input room hroom hok
    rcases format.decompress_cases state input room with
      ⟨code, next, hstep, -⟩ | ⟨rfl, hfront, hstep⟩ |
      ⟨taken, data, -, hstep, rfl, hclosed⟩
    · rw [hstep] at hok
      cases hok
    · rw [hstep]
      dsimp only
      rw [List.drop_length, data_nil, closed_nil]
      simp [Format.data, Format.closed, hfront]
    · rw [hstep]
      exact ⟨(List.take_append_drop room _).symm, hclosed⟩
  end_step := by
    intro state input room hroom hend
    rcases format.decompress_cases state input room with
      ⟨code, next, hstep, -⟩ | ⟨rfl, hfront, hstep⟩ |
      ⟨taken, data, -, hstep, rfl, hclosed⟩
    · rw [hstep] at hend
      cases hend
    · rw [hstep] at hend
      cases hend
    · rw [hstep] at hend ⊢
      have hshort := handOut_end hend
      exact ⟨(List.take_of_length_le hshort).symm,
        List.drop_of_length_le hshort, hclosed, rfl⟩
  error_step := by
    intro state input room code hroom herror
    rcases format.decompress_cases state input room with
      ⟨code', next, hstep, hdata, hclosed⟩ | ⟨rfl, hfront, hstep⟩ |
      ⟨taken, data, -, hstep, -, -⟩
    · rw [hdata]
      exact ⟨hroom, hclosed⟩
    · rw [hstep] at herror
      cases herror
    · rw [hstep] at herror
      exact absurd herror handOut_not_error
  progress := by
    intro state input room hroom hinput hok
    rcases format.decompress_cases state input room with
      ⟨code, next, hstep, -⟩ | ⟨rfl, hfront, hstep⟩ |
      ⟨taken, data, hsome, hstep, -, -⟩
    · rw [hstep] at hok
      cases hok
    · rw [hstep]
      exact Or.inl (List.length_pos_iff.mpr hinput)
    · rw [hstep] at hok ⊢
      have hlong := handOut_ok hok
      refine Or.inr (List.length_pos_iff.mp ?_)
      rw [handOut, List.length_take]
      omega
  exhausted := by
    intro state room hroom hok hnone
    rcases format.decompress_cases state [] room with
      ⟨code, next, hstep, -⟩ | ⟨rfl, hfront, hstep⟩ |
      ⟨taken, data, -, hstep, rfl, -⟩
    · rw [hstep] at hok
      cases hok
    · exact ⟨format.data_nil, format.closed_nil⟩
    · rw [hstep] at hok hnone
      have hlong := handOut_ok hok
      have hlength := congrArg List.length hnone
      rw [handOut, List.length_take, List.length_nil] at hlength
      omega
  after_end := by
    intro state input room hroom hend room' hroom'
    rcases format.decompress_cases state input room with
      ⟨code, next, hstep, -⟩ | ⟨rfl, hfront, hstep⟩ |
      ⟨taken, data, -, hstep, rfl, hclosed⟩
    · rw [hstep] at hend
      cases hend
    · rw [hstep] at hend
      cases hend
    · rw [hstep] at hend ⊢
      have hdrop := List.drop_of_length_le (handOut_end hend)
      refine ⟨-1, ?_⟩
      rw [handOut]
      dsimp only
      rw [hdrop]
      rfl

end Format

end Decoder

end MetaOS
