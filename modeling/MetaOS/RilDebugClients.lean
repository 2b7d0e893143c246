/-
The clients of the debug port, hardware/ril/rild/radiooptions.c and
hardware/ril/rild/sendPDU.c, and what `debugCallback` reads of what they send.
-/
import MetaOS.RilDebugPort

namespace MetaOS

open Bytes CString SendMessage DebugPort

namespace DebugPort

/-- What a client has sent comes in whole: every `send` alone or together with
some behind it, and then the client closes. -/
inductive Delivered : List Bytes → Connection → Prop
  | closed : Delivered [] []
  | nothing {sends : List Bytes} {c : Connection} (hrest : Delivered sends c) :
      Delivered ([] :: sends) c
  | arrival {sends : List Bytes} {c : Connection} (group : List Bytes)
      (hsome : group.flatten ≠ []) (hrest : Delivered sends c) :
      Delivered (group ++ sends) (.bytes group.flatten hsome :: c)

theorem Delivered.at_once (sends : List Bytes) (hsome : sends.flatten ≠ []) :
    Delivered sends [.bytes sends.flatten hsome] := by
  have hwhole := Delivered.arrival sends hsome .closed
  rwa [List.append_nil] at hwhole

theorem Delivered.nothings {group sends : List Bytes} {c : Connection}
    (hnothing : group.flatten = []) (hrest : Delivered sends c) :
    Delivered (group ++ sends) c := by
  induction group with
  | nil => exact hrest
  | cons sent group ih =>
      rw [List.flatten_cons, List.append_eq_nil_iff] at hnothing
      rw [hnothing.1]
      exact .nothing (ih hnothing.2)

theorem Delivered.recv_zero {sends : List Bytes} {c : Connection}
    (hwhole : Delivered sends c) : recv 0 c = (some [], c) := by
  induction hwhole with
  | closed => rfl
  | nothing hrest ih => exact ih
  | arrival group hsome hrest ih =>
      simp only [recv, Nat.zero_min, List.take_zero, List.drop_zero]
      rw [dif_neg hsome]

/-- A call that asks for what was sent gets it. -/
theorem Delivered.recv_eq {sent : Bytes} {sends : List Bytes} {c : Connection}
    (hwhole : Delivered (sent :: sends) c) (hfits : sent.length < 2 ^ 31) :
    ∃ c', recv sent.length c = (some sent, c') ∧ Delivered sends c' := by
  generalize hall : sent :: sends = all at hwhole
  cases hwhole with
  | closed => cases hall
  | nothing hrest =>
      cases hall
      exact ⟨c, hrest.recv_zero, hrest⟩
  | arrival group hsome hrest =>
      cases group with
      | nil => exact absurd rfl hsome
      | cons first group =>
          cases hall
          have hmin : min sent.length (2 ^ 31 - 1) = sent.length := by omega
          have htake : (sent :: group).flatten.take sent.length = sent := by
            rw [List.flatten_cons, List.take_left]
          have hdrop : (sent :: group).flatten.drop sent.length =
              group.flatten := by
            rw [List.flatten_cons, List.drop_left]
          simp only [recv, hmin, htake, hdrop]
          split_ifs with hnothing
          · exact ⟨_, rfl, .nothings hnothing hrest⟩
          · exact ⟨_, rfl, .arrival group hnothing hrest⟩

/-- The two calls for a string. -/
def sent (text : Bytes) : List Bytes := [ofLeInt 4 text.length, text]

theorem Delivered.strings {texts : List Bytes} {c : Connection}
    (hwhole : Delivered (texts.flatMap sent) c)
    (hfits : ∀ text ∈ texts, text.length < 2 ^ 31) :
    Strings c (texts.map some) := by
  induction texts generalizing c with
  | nil => exact .done c
  | cons text texts ih =>
      rw [List.forall_mem_cons] at hfits
      have hlen : leInt (ofLeInt 4 text.length) = text.length :=
        RecoverySocket.leInt_ofLeInt_of_range (by omega)
      obtain ⟨between, hnumber, hbehind⟩ := hwhole.recv_eq (by simp)
      rw [ofLeInt_length] at hnumber
      obtain ⟨after, hgot, hrest⟩ := hbehind.recv_eq hfits.1
      refine .next hnumber (ofLeInt_length _ _) ?_ ?_ (ih hrest hfits.2)
      · rw [hlen, Int.emod_eq_of_lt (by omega) (by omega), Int.toNat_natCast]
        exact hgot
      · exact hlen.symm

/-- A count and its strings are read as they were sent. -/
theorem Delivered.receive_eq {texts : List Bytes} {c : Connection}
    (hwhole : Delivered (ofLeInt 4 texts.length :: texts.flatMap sent) c)
    (hcount : texts.length < 2 ^ 31)
    (hfits : ∀ text ∈ texts, text.length < 2 ^ 31) :
    receive c = .complete texts.length (texts.map some) := by
  obtain ⟨after, hgot, hrest⟩ := hwhole.recv_eq (by simp)
  rw [ofLeInt_length] at hgot
  refine receive_eq_complete_iff.mpr ⟨_, after, hgot, ofLeInt_length _ _,
    RecoverySocket.leInt_ofLeInt_of_range (by omega), hrest.strings hfits, ?_⟩
  rw [List.length_map, Int.toNat_natCast]

end DebugPort

/-- A length converted to `size_t`. -/
def sentLen (len : Int) : Nat := (len % 2 ^ 32).toNat

namespace RadioOptions

def SETUP_PDP : Int := 6
def DIAL_CALL : Int := 8

/-- The arguments behind the program's name: `argc` is one more than there
are. -/
def errorCheck (args : List Arg) : Int :=
  match args with
  | [] => -1
  | opt :: _ =>
      let option := atoi opt.1
      let argc := args.length + 1
      if option < 0 ∨ option > 10 then 0
      else if (option = DIAL_CALL ∨ option = SETUP_PDP) ∧ argc = 8 then 0
      else if (option ≠ DIAL_CALL ∧ option ≠ SETUP_PDP) ∧ argc = 2 then 0
      else -1

/-- How many of the arguments are sent, going by the first. -/
def getNumberArgs (opt : Arg) : Nat :=
  let option := atoi opt.1
  if option ≠ DIAL_CALL ∧ option ≠ SETUP_PDP then 1
  else if option = SETUP_PDP then 7
  else 2

/-- The length of an argument and the argument. -/
def sendArg (arg : Arg) : List Bytes :=
  let len := messageLen arg.1
  [ofLeInt 4 len, arg.1.take (sentLen len)]

/-- What `main` sends, call by call; nothing if it prints its usage or follows
a null pointer behind its arguments. -/
def main (args : List Arg) : Option (List Bytes) :=
  if errorCheck args ≠ 0 then none
  else
    match args with
    | [] => none
    | opt :: _ =>
        let num_socket_args := getNumberArgs opt
        if args.length < num_socket_args then none
        else some (ofLeInt 4 num_socket_args ::
          (args.take num_socket_args).flatMap sendArg)

/-- A command line that the program accepts. -/
structure CommandLine where
  opt : Arg
  rest : List Arg
  accepted : errorCheck (opt :: rest) = 0

namespace CommandLine

def args (line : CommandLine) : List Arg := line.opt :: line.rest

/-- What the callback is to decode. -/
def strings (line : CommandLine) : List Bytes :=
  (line.args.take (getNumberArgs line.opt)).map (·.1)

/-- The callback decodes the arguments that are to be sent, and finds all that
the option takes. -/
def RoundTrip (line : CommandLine) : Prop :=
  ∃ sends, main line.args = some sends ∧
    ∀ c, Delivered sends c →
      receive c = .complete (getNumberArgs line.opt)
        (line.strings.map some) ∧
      ∀ stray k, .uses k ∈ debugCallback stray c → k < line.strings.length

/-- The option is not the one that only the other client has arguments for,
and no argument is as long as no `int` counts. -/
def Whole (line : CommandLine) : Prop :=
  atoi line.opt.1 ≠ 11 ∧ ∀ text ∈ line.strings, text.length < 2 ^ 31

theorem number_le_length (line : CommandLine) :
    getNumberArgs line.opt ≤ line.args.length := by
  have haccepted := line.accepted
  simp only [errorCheck, DIAL_CALL, SETUP_PDP] at haccepted
  simp only [getNumberArgs, DIAL_CALL, SETUP_PDP, args] at haccepted ⊢
  split_ifs at haccepted ⊢ <;> grind

theorem needed_le_number_iff (opt : Arg) :
    needed (atoi opt.1) ≤ getNumberArgs opt ↔ atoi opt.1 ≠ 11 := by
  simp only [getNumberArgs, DIAL_CALL, SETUP_PDP]
  generalize atoi opt.1 = option
  unfold needed
  split <;> grind

theorem strings_length (line : CommandLine) :
    line.strings.length = getNumberArgs line.opt := by
  rw [strings, List.length_map, List.length_take,
    Nat.min_eq_left line.number_le_length]

theorem strings_head (line : CommandLine) :
    line.strings[0]? = some line.opt.1 := by
  have hpos : 0 < getNumberArgs line.opt := by
    unfold getNumberArgs
    dsimp only
    split_ifs <;> decide
  rw [strings, List.getElem?_map, List.getElem?_take_of_lt hpos]
  rfl

theorem main_eq (line : CommandLine) :
    main line.args = some (ofLeInt 4 line.strings.length ::
      (line.args.take (getNumberArgs line.opt)).flatMap sendArg) := by
  have hlength : ¬ line.args.length < getNumberArgs line.opt :=
    not_lt.mpr line.number_le_length
  rw [strings_length]
  unfold main args at *
  rw [line.accepted, if_neg (not_not.mpr rfl)]
  dsimp only
  rw [if_neg hlength]

/-- Arguments of a length that an `int` counts are sent as strings. -/
theorem sends_eq (line : CommandLine)
    (hfits : ∀ text ∈ line.strings, text.length < 2 ^ 31) :
    (line.args.take (getNumberArgs line.opt)).flatMap sendArg =
      line.strings.flatMap sent := by
  rw [strings, List.flatMap_map]
  refine List.flatMap_congr fun arg harg => ?_
  have hlt := hfits arg.1 (List.mem_map_of_mem harg)
  have hlen : messageLen arg.1 = arg.1.length :=
    Int.bmod_eq_of_le (by omega) (by omega)
  have hsent : sentLen arg.1.length = arg.1.length := by
    rw [sentLen, Int.emod_eq_of_lt (by omega) (by omega), Int.toNat_natCast]
  rw [sendArg, hlen, sent, hsent, List.take_length]

/-- The callback's strings are texts of a length that an `int` counts. -/
theorem fits_of_receive {texts : List Bytes} {number : Int} {c : Connection}
    (hreceive : receive c = .complete number (texts.map some)) :
    ∀ text ∈ texts, text.length < 2 ^ 31 := by
  obtain ⟨count, rest, -, -, -, hstrings, -⟩ :=
    receive_eq_complete_iff.mp hreceive
  obtain ⟨found, _, heq, hfits, -⟩ := hstrings.arrived_eq (by simp)
  rwa [List.map_injective_iff.mpr (Option.some_injective _) heq]

/-- What `radiooptions` sends comes through if and only if it is whole. -/
theorem roundTrip_iff_whole (line : CommandLine) :
    line.RoundTrip ↔ line.Whole := by
  have hnumber := line.strings_length
  have hoption : ∀ stray, arg stray (line.strings.map some) 0 =
      line.opt.1 := by
    intro stray
    rw [arg, List.getElem?_map, strings_head]
    exact cstr_eq_self line.opt.2
  constructor
  · rintro ⟨sends, hmain, hround⟩
    rw [main_eq] at hmain
    cases hmain
    have hsome : (ofLeInt 4 line.strings.length ::
        (line.args.take (getNumberArgs line.opt)).flatMap sendArg).flatten
          ≠ [] := by
      intro hnil
      have hlength := congrArg List.length hnil
      simp at hlength
    obtain ⟨hreceive, huses⟩ := hround _ (.at_once _ hsome)
    refine ⟨?_, fits_of_receive hreceive⟩
    rw [← needed_le_number_iff, ← hnumber]
    by_contra hmore
    have huse : .uses line.strings.length ∈ debugCallback (fun _ => []) _ :=
      (uses_debugCallback_iff hreceive _).mpr (.inl (by rw [hoption]; omega))
    exact lt_irrefl _ (huses _ _ huse)
  · rintro ⟨hoption11, hfits⟩
    refine ⟨_, line.main_eq, fun c hwhole => ?_⟩
    rw [sends_eq line hfits] at hwhole
    have hcount : line.strings.length < 2 ^ 31 := by
      rw [hnumber]
      unfold getNumberArgs
      dsimp only
      split_ifs <;> decide
    have hreceive := hwhole.receive_eq hcount hfits
    rw [← hnumber]
    refine ⟨hreceive, fun stray k huse => ?_⟩
    have hused := (uses_debugCallback_iff hreceive k).mp huse
    rw [hoption, Int.toNat_natCast, hnumber] at hused
    have hneeded := (needed_le_number_iff line.opt).mpr hoption11
    omega

end CommandLine

end RadioOptions

namespace SendPDU

def errorCheck (args : List Arg) : Int :=
  if args.length + 1 = 9 then 0 else -1

/-- The eight fields in a row. -/
def fields (args : List Arg) : Bytes := (args.take 8).flatMap (·.1)

/-- What `send` finds from the start of `buf`: `snprintf` has put there as much
of the fields as it has room for and a NUL, and `behind` is what follows. -/
def sendBuf (args : List Arg) (behind : Nat → UInt8) (count : Nat) : Bytes :=
  ((fields args).take 1023 ++ 0 :: (List.range count).map behind).take count

/-- What `main` sends, call by call; nothing if it prints its usage.
`args_to_buf` returns the length that the fields would take. -/
def main (behind : Nat → UInt8) (args : List Arg) : Option (List Bytes) :=
  if errorCheck args ≠ 0 then none
  else
    let len := messageLen (fields args)
    some [ofLeInt 4 2, ofLeInt 4 2, ofString "11", ofLeInt 4 len,
      sendBuf args behind (sentLen len)]

/-- A command line that the program accepts. -/
structure CommandLine where
  args : List Arg
  accepted : errorCheck args = 0

namespace CommandLine

/-- The callback decodes the option and the fields, and finds all that the
option takes. -/
def RoundTrip (line : CommandLine) (behind : Nat → UInt8) : Prop :=
  ∃ sends, main behind line.args = some sends ∧
    ∀ c, Delivered sends c →
      receive c =
        .complete 2 [some (ofString "11"), some (fields line.args)] ∧
      ∀ stray k, .uses k ∈ debugCallback stray c → k < 2

/-- The fields fit into `buf`. -/
def Fits (line : CommandLine) : Prop := (fields line.args).length < 1024

theorem main_eq (line : CommandLine) (behind : Nat → UInt8) :
    main behind line.args = some [ofLeInt 4 2, ofLeInt 4 2, ofString "11",
      ofLeInt 4 (messageLen (fields line.args)),
      sendBuf line.args behind
        (sentLen (messageLen (fields line.args)))] := by
  rw [main, line.accepted, if_neg (not_not.mpr rfl)]

theorem zero_not_mem_fields (args : List Arg) : (0 : UInt8) ∉ fields args := by
  rw [fields, List.mem_flatMap]
  rintro ⟨arg, -, hzero⟩
  exact arg.2 hzero

/-- Fields that fit are sent as a string. -/
theorem sends_eq (line : CommandLine) (behind : Nat → UInt8)
    (hfits : line.Fits) :
    main behind line.args =
      some (ofLeInt 4 2 ::
        [ofString "11", fields line.args].flatMap sent) := by
  have hlt : (fields line.args).length < 1024 := hfits
  have hlen : messageLen (fields line.args) = (fields line.args).length :=
    Int.bmod_eq_of_le (by omega) (by omega)
  have hsent : sentLen (fields line.args).length =
      (fields line.args).length := by
    rw [sentLen, Int.emod_eq_of_lt (by omega) (by omega), Int.toNat_natCast]
  have htake : (fields line.args).take 1023 = fields line.args :=
    List.take_of_length_le (by omega)
  have hbuf : sendBuf line.args behind (fields line.args).length =
      fields line.args := by
    rw [sendBuf, htake, List.take_left]
  rw [main_eq, hlen, hsent, hbuf]
  rfl

/-- Fields that do not fit have a NUL among what is sent of them. -/
theorem not_prefix_sendBuf (args : List Arg) (behind : Nat → UInt8)
    (count : Nat) (hlong : 1024 ≤ (fields args).length) :
    ¬ fields args <+: sendBuf args behind count := by
  intro hsent
  have hlt : 1023 < (fields args).length := by omega
  have hwhole := hsent.trans (List.take_prefix _ _)
  have hat := hwhole.getElem (i := 1023) hlt
  rw [List.getElem_append_right (by simp)] at hat
  have hzero : (fields args)[1023] = 0 := by
    rw [hat]
    simp [Nat.min_eq_left hlt.le]
  exact zero_not_mem_fields args (hzero ▸ List.getElem_mem hlt)

/-- What `sendPDU` sends comes through if and only if it fits. -/
theorem roundTrip_iff_fits (line : CommandLine) (behind : Nat → UInt8) :
    line.RoundTrip behind ↔ line.Fits := by
  constructor
  · rintro ⟨sends, hmain, hround⟩
    rw [main_eq] at hmain
    cases hmain
    by_contra hlong
    obtain ⟨hreceive, -⟩ := hround _ (.at_once _ (by simp [ofString]))
    obtain ⟨count, rest, hcount, hwidth, -, hstrings, -⟩ :=
      receive_eq_complete_iff.mp hreceive
    obtain ⟨texts, more, htexts, -, harrived⟩ :=
      hstrings.arrived_eq (by simp)
    obtain rfl : [ofString "11", fields line.args] = texts :=
      List.map_injective_iff.mpr (Option.some_injective _) htexts
    have hall := arrived_recv hcount
    rw [harrived, arrived, arrived, List.append_nil] at hall
    simp only [List.flatten_cons, List.flatMap_cons, prefixed,
      List.append_assoc] at hall
    -- The count, the option and the length take the places of the fields'.
    have hbehind := (List.append_inj hall
      ((ofLeInt_length 4 2).trans hwidth.symm)).2
    have hoption := (List.append_inj hbehind (by simp)).2
    have hlength := (List.append_inj hoption rfl).2
    have hfields := (List.append_inj hlength (by simp)).2
    rw [List.flatten_nil, List.flatMap_nil, List.append_nil,
      List.nil_append] at hfields
    exact not_prefix_sendBuf line.args behind _ (not_lt.mp hlong)
      ⟨more, hfields.symm⟩
  · intro hfits
    refine ⟨_, sends_eq line behind hfits, fun c hwhole => ?_⟩
    have hlt : (fields line.args).length < 1024 := hfits
    have hshort : ∀ text ∈ [ofString "11", fields line.args],
        text.length < 2 ^ 31 := by
      simp only [List.forall_mem_cons]
      exact ⟨by decide, by omega, by simp⟩
    have hreceive := @Delivered.receive_eq
      [ofString "11", fields line.args] c hwhole (by simp) hshort
    refine ⟨hreceive, fun stray k huse => ?_⟩
    exact ((uses_debugCallback_iff hreceive k).mp huse).elim
      (fun hk => hk) (fun hk => hk)

end CommandLine

end SendPDU

namespace DebugPort

/-- A command line of a client, `sendPDU`'s with what follows its buffer in
memory, or whatever comes in on the port. -/
inductive Input
  | radiooptions (line : RadioOptions.CommandLine)
  | sendPDU (line : SendPDU.CommandLine) (behind : Nat → UInt8)
  | connection (c : Connection)

namespace Input

/-- What a client sends comes through, and the callback is sound. -/
def Served : Input → Prop
  | radiooptions line => line.RoundTrip
  | sendPDU line behind => line.RoundTrip behind
  | connection c => Sound c

def Servable : Input → Prop
  | radiooptions line => line.Whole
  | sendPDU line _ => line.Fits
  | connection c => Enough c

theorem served_iff (input : Input) : input.Served ↔ input.Servable := by
  cases input with
  | radiooptions line => exact line.roundTrip_iff_whole
  | sendPDU line behind => exact line.roundTrip_iff_fits behind
  | connection c => exact sound_iff c

namespace DebugPortWitness

/-- The option of the other client, without anything to send. -/
def eleven : RadioOptions.CommandLine where
  opt := ⟨ofString "11", by decide⟩
  rest := []
  accepted := by decide

/-- A count of no arguments. -/
def zero : Connection := [.bytes (ofLeInt 4 0) (by decide)]

/-- An SMS of eight fields for the other client. -/
def message : SendPDU.CommandLine where
  args := [⟨ofString "00", by decide⟩, ⟨ofString "01", by decide⟩,
    ⟨ofString "00", by decide⟩, ⟨ofString "0b", by decide⟩,
    ⟨ofString "91", by decide⟩, ⟨ofString "5155214365f7", by decide⟩,
    ⟨ofString "0000", by decide⟩, ⟨ofString "02e834", by decide⟩]
  accepted := by decide

theorem message_served : (Input.sendPDU message fun _ => 0).Served := by
  have hfits : message.Fits := by
    unfold SendPDU.CommandLine.Fits
    decide
  exact (served_iff (.sendPDU message fun _ => 0)).mpr hfits

theorem eleven_not_served :
    ¬ ∀ input : Input, input.Served := by
  intro hserved
  have hwhole := eleven.roundTrip_iff_whole.mp
    (hserved (.radiooptions eleven))
  exact hwhole.1 (by decide)

example : debugCallback (fun _ => ofString "0") zero =
    [.uses 0, .issueLocalRequest Request.RESET_RADIO .null, .closes] := by
  decide

end DebugPortWitness

end Input

end DebugPort

end MetaOS
