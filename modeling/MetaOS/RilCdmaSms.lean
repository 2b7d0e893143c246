/-
hardware/ril/libril/ril.cpp: a CDMA short message on its way out through
`responseCdmaSms` and in through `dispatchCdmaSms`.

Fields are those of `RIL_CDMA_SMS_Message` in ril_cdma_sms.h, whose
enumerations are forced to the size of an integer.
-/
import MetaOS.RilCounts

namespace MetaOS

namespace RilCdmaSms

open RilDispatch

structure Address where
  digitMode : Int32
  numberMode : Int32
  numberType : Int32
  numberPlan : Int32
  numberOfDigits : UInt8
  digits : Vector UInt8 RIL_CDMA_SMS_ADDRESS_MAX
deriving DecidableEq

structure Subaddress where
  subaddressType : Int32
  odd : UInt8
  numberOfDigits : UInt8
  digits : Vector UInt8 RIL_CDMA_SMS_SUBADDRESS_MAX
deriving DecidableEq

/-- A message as it lies in memory. -/
structure Message where
  uTeleserviceID : Int32
  bIsServicePresent : UInt8
  uServicecategory : Int32
  sAddress : Address
  sSubAddress : Subaddress
  uBearerDataLen : Int32
  aBearerData : Vector UInt8 RIL_CDMA_SMS_BEARER_DATA_MAX
deriving DecidableEq

/-- `sizeof(RIL_CDMA_SMS_Message)` -/
def sizeofMessage : Nat := 372

/-- How many entries of each array are sent. -/
def Address.digitLimit (address : Address) : Nat :=
  min address.numberOfDigits.toNat RIL_CDMA_SMS_ADDRESS_MAX

def Subaddress.digitLimit (subaddress : Subaddress) : Nat :=
  min subaddress.numberOfDigits.toNat RIL_CDMA_SMS_SUBADDRESS_MAX

def Message.digitLimit (message : Message) : Nat :=
  (min message.uBearerDataLen.toInt RIL_CDMA_SMS_BEARER_DATA_MAX).toNat

theorem Address.digitLimit_le (address : Address) :
    address.digitLimit ≤ RIL_CDMA_SMS_ADDRESS_MAX := min_le_right _ _

theorem Subaddress.digitLimit_le (subaddress : Subaddress) :
    subaddress.digitLimit ≤ RIL_CDMA_SMS_SUBADDRESS_MAX := min_le_right _ _

theorem Message.digitLimit_le (message : Message) :
    message.digitLimit ≤ RIL_CDMA_SMS_BEARER_DATA_MAX := by
  unfold digitLimit
  omega

/-- What is written to a parcel, in order. -/
inductive Write where
  | int32 (value : Int32)
  | byte (value : UInt8)
deriving DecidableEq

def writeInt32 (value : Int32) (p : List Write) : List Write :=
  p ++ [.int32 value]

def write (value : UInt8) (p : List Write) : List Write :=
  p ++ [.byte value]

/-- The loops over the first entries of an array. -/
def writeDigits {size : Nat} (digits : Vector UInt8 size) (limit : Nat)
    (hlimit : limit ≤ size) (p : List Write) : List Write :=
  (List.finRange limit).foldl
    (fun p digitCount => write (digits.get (digitCount.castLE hlimit)) p) p

def RIL_ERRNO_INVALID_RESPONSE : Int := -1

/-- The status that is returned, and the parcel. -/
def responseCdmaSms (p : List Write) (response : Option Message)
    (responselen : Nat) : Int × List Write :=
  match response with
  | none => (RIL_ERRNO_INVALID_RESPONSE, p)
  | some p_cur =>
      if responselen ≠ sizeofMessage then (RIL_ERRNO_INVALID_RESPONSE, p)
      else
        let p := writeInt32 p_cur.uTeleserviceID p
        let p := write p_cur.bIsServicePresent p
        let p := writeInt32 p_cur.uServicecategory p
        let p := writeInt32 p_cur.sAddress.digitMode p
        let p := writeInt32 p_cur.sAddress.numberMode p
        let p := writeInt32 p_cur.sAddress.numberType p
        let p := writeInt32 p_cur.sAddress.numberPlan p
        let p := write p_cur.sAddress.numberOfDigits p
        let p := writeDigits p_cur.sAddress.digits p_cur.sAddress.digitLimit
          p_cur.sAddress.digitLimit_le p
        let p := writeInt32 p_cur.sSubAddress.subaddressType p
        let p := write p_cur.sSubAddress.odd p
        let p := write p_cur.sSubAddress.numberOfDigits p
        let p := writeDigits p_cur.sSubAddress.digits
          p_cur.sSubAddress.digitLimit p_cur.sSubAddress.digitLimit_le p
        let p := writeInt32 p_cur.uBearerDataLen p
        let p := writeDigits p_cur.aBearerData p_cur.digitLimit
          p_cur.digitLimit_le p
        (0, p)

/-- What is written of an array. -/
def entries {size : Nat} (digits : Vector UInt8 size) (limit : Nat) :
    Bytes :=
  digits.toList.take limit

theorem length_entries {size limit : Nat} (digits : Vector UInt8 size)
    (hlimit : limit ≤ size) : (entries digits limit).length = limit := by
  rw [entries, List.length_take, Vector.length_toList, min_eq_left hlimit]

theorem writeDigits_eq {size limit : Nat} (digits : Vector UInt8 size)
    (hlimit : limit ≤ size) (p : List Write) :
    writeDigits digits limit hlimit p =
      p ++ (entries digits limit).map .byte := by
  have hentries : entries digits limit =
      (List.finRange limit).map
        fun digitCount => digits.get (digitCount.castLE hlimit) := by
    refine List.ext_getElem ?_ fun i hi hi' => ?_
    · simp [length_entries digits hlimit]
    · simp [entries, Vector.get]
  rw [hentries, writeDigits]
  generalize List.finRange limit = counts
  induction counts generalizing p with
  | nil => rw [List.foldl_nil, List.map_nil, List.map_nil, List.append_nil]
  | cons count counts ih =>
      rw [List.foldl_cons, ih, write, List.append_assoc]
      rfl

/-- What a message leaves in a parcel. -/
def Message.writes (message : Message) : List Write :=
  .int32 message.uTeleserviceID :: .byte message.bIsServicePresent ::
  .int32 message.uServicecategory :: .int32 message.sAddress.digitMode ::
  .int32 message.sAddress.numberMode :: .int32 message.sAddress.numberType ::
  .int32 message.sAddress.numberPlan ::
  .byte message.sAddress.numberOfDigits ::
  ((entries message.sAddress.digits message.sAddress.digitLimit).map .byte ++
  .int32 message.sSubAddress.subaddressType ::
  .byte message.sSubAddress.odd ::
  .byte message.sSubAddress.numberOfDigits ::
  ((entries message.sSubAddress.digits
    message.sSubAddress.digitLimit).map .byte ++
  .int32 message.uBearerDataLen ::
  (entries message.aBearerData message.digitLimit).map .byte))

theorem responseCdmaSms_writes (p : List Write) (message : Message) :
    responseCdmaSms p (some message) sizeofMessage =
      (0, p ++ message.writes) := by
  unfold responseCdmaSms
  dsimp only
  rw [if_neg (not_not.mpr rfl)]
  simp only [writeDigits_eq, writeInt32, write, Message.writes,
    List.append_assoc, List.cons_append, List.nil_append]

/-- A response that is not a message leaves the parcel as it is. -/
theorem responseCdmaSms_invalid {p : List Write} {response : Option Message}
    {responselen : Nat}
    (hinvalid : response = none ∨ responselen ≠ sizeofMessage) :
    responseCdmaSms p response responselen =
      (RIL_ERRNO_INVALID_RESPONSE, p) := by
  cases response with
  | none => rfl
  | some message => exact if_pos (hinvalid.resolve_left (by simp))

section Reading

variable {P : Type}

/-- Reads of `lib` return what was stored, in order. -/
structure Stores (lib : Library P) (stored : List Write → P) : Prop where
  int32 (value : Int32) (rest : List Write) :
    lib.readInt32 (stored (.int32 value :: rest)) =
      (some value.toInt, stored rest)
  byte (value : UInt8) (rest : List Write) :
    lib.readByte (stored (.byte value :: rest)) = (some value, stored rest)

/-- The message that the vendor is given agrees with the one that was sent, in
every field and as far as the arrays are used. -/
structure Message.Delivered (message : Message)
    (rcsm : RILCdmaSmsMessage) : Prop where
  uTeleserviceID : rcsm.uTeleserviceID = message.uTeleserviceID.toInt
  bIsServicePresent : rcsm.bIsServicePresent = message.bIsServicePresent
  uServicecategory : rcsm.uServicecategory = message.uServicecategory.toInt
  digitMode : rcsm.digitMode = message.sAddress.digitMode.toInt
  numberMode : rcsm.numberMode = message.sAddress.numberMode.toInt
  numberType : rcsm.numberType = message.sAddress.numberType.toInt
  numberPlan : rcsm.numberPlan = message.sAddress.numberPlan.toInt
  numberOfDigits : rcsm.address.1 = message.sAddress.numberOfDigits
  digits (i : Fin RIL_CDMA_SMS_ADDRESS_MAX)
    (hi : i < message.sAddress.numberOfDigits.toNat) :
    rcsm.address.2[i]? = some (message.sAddress.digits.get i)
  subaddressType :
    rcsm.subaddressType = message.sSubAddress.subaddressType.toInt
  odd : rcsm.odd = message.sSubAddress.odd
  subaddressDigits : rcsm.subaddress.1 = message.sSubAddress.numberOfDigits
  subdigits (i : Fin RIL_CDMA_SMS_SUBADDRESS_MAX)
    (hi : i < message.sSubAddress.numberOfDigits.toNat) :
    rcsm.subaddress.2[i]? = some (message.sSubAddress.digits.get i)
  uBearerDataLen : rcsm.uBearerDataLen = message.uBearerDataLen.toInt
  aBearerData (i : Fin RIL_CDMA_SMS_BEARER_DATA_MAX)
    (hi : i < message.uBearerDataLen.toInt) :
    rcsm.aBearerData[i]? = some (message.aBearerData.get i)

/-- What the vendor is given of a message. -/
def Message.received (message : Message) : RILCdmaSmsMessage where
  uTeleserviceID := message.uTeleserviceID.toInt
  bIsServicePresent := message.bIsServicePresent
  uServicecategory := message.uServicecategory.toInt
  digitMode := message.sAddress.digitMode.toInt
  numberMode := message.sAddress.numberMode.toInt
  numberType := message.sAddress.numberType.toInt
  numberPlan := message.sAddress.numberPlan.toInt
  address := (message.sAddress.numberOfDigits,
    entries message.sAddress.digits message.sAddress.digitLimit)
  subaddressType := message.sSubAddress.subaddressType.toInt
  odd := message.sSubAddress.odd
  subaddress := (message.sSubAddress.numberOfDigits,
    entries message.sSubAddress.digits message.sSubAddress.digitLimit)
  uBearerDataLen := message.uBearerDataLen.toInt
  aBearerData := entries message.aBearerData message.digitLimit

variable {lib : Library P} {stored : List Write → P}
  (hstores : Stores lib stored)

theorem eval_askByte (p : P) :
    askByte.eval lib.answer p = lib.readByte p := rfl

theorem eval_read (ut : UInt8) (p : P) :
    (read ut).eval lib.answer p =
      (((lib.readByte p).1.isSome, (lib.readByte p).1.getD ut),
        (lib.readByte p).2) := by
  unfold RilDispatch.read
  rw [Prog.eval_bind, eval_askByte]
  cases (lib.readByte p).1 with
  | none => rfl
  | some value => rfl

/-- A program takes these writes from the parcel, whatever follows them, and
returns a value. -/
def Takes (lib : Library P) (stored : List Write → P) {α : Type}
    (prog : Reader α) (writes : List Write) (value : α) : Prop :=
  ∀ rest, prog.eval lib.answer (stored (writes ++ rest)) = (value, stored rest)

theorem takes_pure {α : Type} (value : α) :
    Takes lib stored (pure value) [] value :=
  fun _ => rfl

include hstores

theorem Stores.takes_readInt32 {α : Type} {t : Int} {value : Int32}
    {next : Bool × Int → Reader α} {writes : List Write} {result : α}
    (hnext : Takes lib stored (next (true, value.toInt)) writes result) :
    Takes lib stored (readInt32 t >>= next) (.int32 value :: writes)
      result := by
  intro rest
  rw [Prog.eval_bind, eval_readInt32, List.cons_append, hstores.int32]
  exact hnext rest

theorem Stores.takes_read {α : Type} {ut value : UInt8}
    {next : Bool × UInt8 → Reader α} {writes : List Write} {result : α}
    (hnext : Takes lib stored (next (true, value)) writes result) :
    Takes lib stored (read ut >>= next) (.byte value :: writes) result := by
  intro rest
  rw [Prog.eval_bind, eval_read, List.cons_append, hstores.byte]
  exact hnext rest

theorem Stores.eval_readBytes (bytes : Bytes) (ut : UInt8)
    (rest : List Write) :
    ∃ last, (readBytes bytes.length true ut).eval lib.answer
      (stored (bytes.map .byte ++ rest)) =
      ((true, last, bytes), stored rest) := by
  induction bytes generalizing ut with
  | nil => exact ⟨ut, rfl⟩
  | cons byte bytes ih =>
      obtain ⟨last, hbytes⟩ := ih byte
      refine ⟨last, ?_⟩
      rw [List.map_cons, List.cons_append, List.length_cons, readBytes,
        Prog.eval_bind, eval_read, hstores.byte]
      dsimp only [Option.isSome_some, Option.getD_some]
      rw [Prog.eval_bind, hbytes]
      rfl

theorem Stores.takes_readBytes {α : Type} {size limit : Nat}
    {digits : Vector UInt8 size} (hlimit : limit ≤ size) {ut : UInt8}
    {next : Bool × UInt8 × Bytes → Reader α} {writes : List Write}
    {result : α}
    (hnext : ∀ last, Takes lib stored
      (next (true, last, entries digits limit)) writes result) :
    Takes lib stored (readBytes limit true ut >>= next)
      ((entries digits limit).map .byte ++ writes) result := by
  intro rest
  obtain ⟨last, hbytes⟩ := hstores.eval_readBytes (entries digits limit) ut
    (writes ++ rest)
  rw [length_entries digits hlimit] at hbytes
  rw [Prog.eval_bind, List.append_assoc, hbytes]
  exact hnext last rest

/-- Field by field, the reads are those that were written. -/
theorem Stores.takes_dispatchCdmaSms (m : Machine) (message : Message) :
    Takes lib stored (dispatchCdmaSms m) message.writes
      (.onRequest (.cdmaSms message.received) 372) := by
  unfold dispatchCdmaSms readCdmaSms Message.writes
  simp only [bind_assoc]
  refine hstores.takes_readInt32 ?_
  refine hstores.takes_read ?_
  refine hstores.takes_readInt32 ?_
  refine hstores.takes_readInt32 ?_
  refine hstores.takes_readInt32 ?_
  refine hstores.takes_readInt32 ?_
  refine hstores.takes_readInt32 ?_
  refine hstores.takes_read ?_
  refine hstores.takes_readBytes message.sAddress.digitLimit_le fun ut => ?_
  refine hstores.takes_readInt32 ?_
  refine hstores.takes_read ?_
  refine hstores.takes_read ?_
  refine hstores.takes_readBytes message.sSubAddress.digitLimit_le
    fun ut => ?_
  refine hstores.takes_readInt32 ?_
  rw [← List.append_nil (List.map Write.byte _)]
  refine hstores.takes_readBytes message.digitLimit_le fun ut => ?_
  exact takes_pure _

omit hstores in
theorem getElem?_entries {size limit : Nat} (digits : Vector UInt8 size)
    (i : Fin size) (hi : i < limit) :
    (entries digits limit)[i]? = some (digits.get i) := by
  simp [entries, Vector.get, hi]

omit hstores in
theorem Message.received_delivered (message : Message) :
    message.Delivered message.received where
  uTeleserviceID := rfl
  bIsServicePresent := rfl
  uServicecategory := rfl
  digitMode := rfl
  numberMode := rfl
  numberType := rfl
  numberPlan := rfl
  numberOfDigits := rfl
  digits i hi := getElem?_entries _ i (lt_min hi i.isLt)
  subaddressType := rfl
  odd := rfl
  subaddressDigits := rfl
  subdigits i hi := getElem?_entries _ i (lt_min hi i.isLt)
  uBearerDataLen := rfl
  aBearerData i hi := by
    refine getElem?_entries _ i ?_
    have hsize := i.isLt
    unfold digitLimit
    omega

/-- A message that is sent as a response and read as a request reaches the
vendor as it was, and of the parcel nothing is left. -/
theorem Stores.dispatchCdmaSms_responseCdmaSms (m : Machine)
    (message : Message) :
    ∃ writes rcsm,
      responseCdmaSms [] (some message) sizeofMessage = (0, writes) ∧
      (dispatchCdmaSms m).eval lib.answer (stored writes) =
        (.onRequest (.cdmaSms rcsm) sizeofMessage, stored []) ∧
      message.Delivered rcsm := by
  refine ⟨message.writes, message.received, ?_, ?_,
    message.received_delivered⟩
  · rw [responseCdmaSms_writes, List.nil_append]
  · have htakes := hstores.takes_dispatchCdmaSms m message []
    rwa [List.append_nil] at htakes

end Reading

namespace RilCdmaSmsWitness

open RilDispatchWitness

/-- Integers in little-endian order, bytes padded to four. -/
def Write.bytes : Write → Bytes
  | .int32 value => Bytes.ofLeInt 4 value.toInt
  | .byte value => [value, 0, 0, 0]

def stored (writes : List Write) : Bytes := writes.flatMap Write.bytes

theorem plain_stores : Stores plain stored := by
  constructor
  · intro value rest
    have hlow := value.le_toInt
    have hhigh := value.toInt_lt
    have hlength := Bytes.ofLeInt_length 4 value.toInt
    change plainInt32 (Bytes.ofLeInt 4 value.toInt ++ stored rest) = _
    unfold plainInt32
    rw [if_pos (by rw [List.length_append]; omega),
      List.take_left' hlength, List.drop_left' hlength, Bytes.ofLeInt,
      Bytes.leNat_ofLeNat]
    dsimp only
    congr 2
    split_ifs
    · omega
    · omega
  · intro value rest
    have hread (p : Bytes) : plain.readByte p =
        ((plainInplace p 1).1.bind (·.head?), (plainInplace p 1).2) := rfl
    have hinplace :
        plainInplace (value :: 0 :: 0 :: 0 :: stored rest) 1 =
          (some [value], stored rest) := if_pos (by simp)
    have hstored : stored (.byte value :: rest) =
        value :: 0 :: 0 :: 0 :: stored rest := rfl
    rw [hread, hstored, hinplace]
    rfl

/-- More digits than there is room for, and no bearer data. -/
def message : Message where
  uTeleserviceID := -1
  bIsServicePresent := 1
  uServicecategory := 7
  sAddress := ⟨0, 1, 2, 3, 40, .replicate _ 9⟩
  sSubAddress := ⟨1, 0, 2, .replicate _ 5⟩
  uBearerDataLen := -3
  aBearerData := .replicate _ 4

theorem message_delivered :
    ∃ writes rcsm,
      responseCdmaSms [] (some message) sizeofMessage = (0, writes) ∧
      (dispatchCdmaSms machine).eval plain.answer (stored writes) =
        (.onRequest (.cdmaSms rcsm) sizeofMessage, stored []) ∧
      message.Delivered rcsm :=
  plain_stores.dispatchCdmaSms_responseCdmaSms machine message

end RilCdmaSmsWitness

end RilCdmaSms

end MetaOS
