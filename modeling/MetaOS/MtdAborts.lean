/-
Sessions on a device whose file descriptor may fail.

A failed open, query or close is reported up to the caller: a session that
does not report it has run as on a device where nothing of the kind happened.
The reader issues no call that changes a block.
-/
import MetaOS.Flash

namespace MetaOS

namespace Mtd

/-- The calls that leave the blocks alone. -/
def Call.Looks : Call → Prop
  | .write _ | .erase _ _ => False
  | _ => True

theorem Flash.block_of_answers {part : Partition} (flash : Flash part)
    {c : Call} (hc : c.Looks) {dev dev' : Device} {r : Answer c}
    (happ : flash.answers c dev r dev') : dev'.block = dev.block := by
  rcases happ with hsame | ⟨-, rfl⟩
  · obtain ⟨-, rfl⟩ := Prod.mk.inj hsame
    cases c <;> first | exact hc.elim | rfl
  · rfl

section Reader

variable (part : Partition)

theorem issues_readBlockLoop (before blocks pos : Nat) :
    (readBlockLoop part before blocks pos).Issues Call.Looks := by
  induction blocks generalizing pos with
  | zero => trivial
  | succ blocks ih =>
      have hrest := ih (pos + part.eraseSize)
      unfold readBlockLoop
      refine (Prog.issues_perform trivial).bind fun found => ?_
      refine Prog.Issues.ite ?_ hrest
      refine (Prog.issues_perform trivial).bind fun read => ?_
      cases read with
      | none => exact hrest
      | some data =>
          refine (Prog.issues_perform trivial).bind fun stats => ?_
          cases stats with
          | none => trivial
          | some after =>
              refine Prog.Issues.ite hrest ?_
              refine (Prog.issues_perform trivial).bind fun mark => ?_
              exact Prog.Issues.ite hrest (Prog.Issues.ite trivial hrest)

theorem issues_readBlock : (readBlock part).Issues Call.Looks := by
  refine (Prog.issues_perform trivial).bind fun stats => ?_
  cases stats with
  | none => trivial
  | some before =>
      refine (Prog.issues_perform trivial).bind fun pos => ?_
      cases pos with
      | none => trivial
      | some pos => exact issues_readBlockLoop part _ _ _

theorem issues_readDirect (blocks : Nat) :
    (readDirect part blocks).Issues Call.Looks := by
  induction blocks with
  | zero => trivial
  | succ blocks ih =>
      refine (issues_readBlock part).bind fun read => ?_
      cases read with
      | none => trivial
      | some data =>
          refine ih.bind fun rest => ?_
          cases rest with
          | none => trivial
          | some rest => trivial

theorem issues_mtdReadData (ctx : ReadContext) (len : Nat) :
    (mtdReadData part ctx len).Issues Call.Looks := by
  refine Prog.Issues.ite ?_ trivial
  generalize len + 1 = fuel
  induction fuel generalizing len ctx with
  | zero => trivial
  | succ fuel ih =>
      unfold readLoop
      refine Prog.Issues.ite trivial ?_
      refine (issues_readDirect part _).bind fun direct => ?_
      cases direct with
      | none => trivial
      | some direct =>
          refine Prog.Issues.ite trivial ?_
          refine (issues_readBlock part).bind fun buffer => ?_
          cases buffer with
          | none => trivial
          | some buffer => exact (ih _ _).bind fun _ => trivial

theorem issues_mtdReadPartition :
    (mtdReadPartition part).Issues Call.Looks := by
  refine (Prog.issues_perform trivial).bind fun opened => ?_
  exact Prog.Issues.ite trivial trivial

theorem aborts_readBlockLoop (before blocks pos : Nat) :
    (readBlockLoop part before blocks pos).Aborts Call.Fails (· = none) := by
  induction blocks generalizing pos with
  | zero => trivial
  | succ blocks ih =>
      have hrest := ih (pos + part.eraseSize)
      unfold readBlockLoop
      refine Prog.aborts_perform.bind (fun found => ?_) (fun _ => False.elim)
      refine Prog.Aborts.ite ?_ hrest
      refine Prog.aborts_perform.bind (fun read => ?_) (fun _ => False.elim)
      cases read with
      | none => exact hrest
      | some data =>
          refine Prog.aborts_perform.bind (fun stats => ?_) ?_
          · cases stats with
            | none => trivial
            | some after =>
                refine Prog.Aborts.ite hrest ?_
                refine Prog.aborts_perform.bind (fun mark => ?_)
                  (fun _ => False.elim)
                exact Prog.Aborts.ite hrest (Prog.Aborts.ite trivial hrest)
          · rintro _ rfl
            rfl

theorem aborts_readBlock :
    (readBlock part).Aborts Call.Fails (· = none) := by
  refine Prog.aborts_perform.bind (fun stats => ?_) ?_
  · cases stats with
    | none => trivial
    | some before =>
        refine Prog.aborts_perform.bind (fun pos => ?_) ?_
        · cases pos with
          | none => trivial
          | some pos => exact aborts_readBlockLoop part _ _ _
        · rintro _ rfl
          rfl
  · rintro _ rfl
    rfl

theorem aborts_readDirect (blocks : Nat) :
    (readDirect part blocks).Aborts Call.Fails (· = none) := by
  induction blocks with
  | zero => trivial
  | succ blocks ih =>
      refine (aborts_readBlock part).bind (fun read => ?_) ?_
      · cases read with
        | none => trivial
        | some data =>
            refine ih.bind (fun rest => ?_) ?_
            · cases rest with
              | none => trivial
              | some rest => trivial
            · rintro _ rfl
              rfl
      · rintro _ rfl
        rfl

theorem aborts_mtdReadData (ctx : ReadContext) (len : Nat) :
    (mtdReadData part ctx len).Aborts Call.Fails (·.1 = none) := by
  refine Prog.Aborts.ite ?_ trivial
  generalize len + 1 = fuel
  induction fuel generalizing len ctx with
  | zero => trivial
  | succ fuel ih =>
      unfold readLoop
      refine Prog.Aborts.ite trivial ?_
      refine (aborts_readDirect part _).bind (fun direct => ?_) ?_
      · cases direct with
        | none => trivial
        | some direct =>
            refine Prog.Aborts.ite trivial ?_
            refine (aborts_readBlock part).bind (fun buffer => ?_) ?_
            · cases buffer with
              | none => trivial
              | some buffer =>
                  refine (ih _ _).bind (fun _ => trivial) ?_
                  rintro ⟨_, ctx⟩ rfl
                  rfl
            · rintro _ rfl
              rfl
      · rintro _ rfl
        rfl

theorem aborts_mtdReadPartition :
    (mtdReadPartition part).Aborts Call.Fails (· = none) := by
  refine Prog.aborts_perform.bind (fun opened => ?_) ?_
  · exact Prog.Aborts.ite trivial trivial
  · rintro _ rfl
    rfl

end Reader

section Writer

variable (part : Partition)

theorem aborts_writeIf {bad : Bool → Prop} (found : Bool) (data : Bytes)
    {verify : MtdProg Bool} (hverify : verify.Aborts Call.Fails bad) :
    (if found then writeCall data >>= fun _ => verify else verify).Aborts
      Call.Fails bad := by
  refine Prog.Aborts.ite ?_ hverify
  exact Prog.aborts_perform.bind (fun _ => hverify) (fun _ => False.elim)

theorem aborts_writeAttempts {bad : Bool → Prop} (pos : Nat) (data : Bytes)
    (retries : Nat) :
    (writeAttempts part pos data retries).Aborts Call.Fails bad := by
  induction retries with
  | zero => trivial
  | succ retries ih =>
      unfold writeAttempts
      refine Prog.aborts_perform.bind (fun erased => ?_) (fun _ => False.elim)
      refine Prog.Aborts.ite ?_ ih
      refine Prog.aborts_perform.bind (fun found => ?_) (fun _ => False.elim)
      refine aborts_writeIf found data ?_
      refine Prog.aborts_perform.bind (fun found => ?_) (fun _ => False.elim)
      refine Prog.Aborts.ite ?_ ih
      refine Prog.aborts_perform.bind (fun read => ?_) (fun _ => False.elim)
      cases read with
      | none => exact ih
      | some verify => exact Prog.Aborts.ite trivial ih

theorem aborts_writeBlockLoop {bad : Bool × WriteContext → Prop}
    (data : Bytes) (blocks pos : Nat) (ctx : WriteContext) :
    (writeBlockLoop part data blocks pos ctx).Aborts Call.Fails bad := by
  induction blocks generalizing pos ctx with
  | zero => trivial
  | succ blocks ih =>
      have hrest := ih (pos + part.eraseSize) (addBadBlockOffset ctx pos)
      unfold writeBlockLoop
      refine Prog.aborts_perform.bind (fun mark => ?_) (fun _ => False.elim)
      refine Prog.Aborts.ite hrest ?_
      have hattempts : (writeAttempts part pos data 2).Aborts Call.Fails
          (fun _ => False) := aborts_writeAttempts part _ _ _
      refine hattempts.bind (fun ok => ?_) (fun _ => False.elim)
      refine Prog.Aborts.ite trivial ?_
      exact Prog.aborts_perform.bind (fun _ => hrest) (fun _ => False.elim)

theorem aborts_writeBlock (ctx : WriteContext) (data : Bytes) :
    (writeBlock part ctx data).Aborts Call.Fails (·.1 = false) := by
  refine Prog.aborts_perform.bind (fun pos => ?_) ?_
  · cases pos with
    | none => trivial
    | some pos => exact aborts_writeBlockLoop part _ _ _ _
  · rintro _ rfl
    rfl

theorem aborts_writeDirect (blocks : Nat) (ctx : WriteContext)
    (data : Bytes) :
    (writeDirect part blocks ctx data).Aborts Call.Fails (·.1 = false) := by
  induction blocks generalizing ctx data with
  | zero => trivial
  | succ blocks ih =>
      refine (aborts_writeBlock part _ _).bind (fun wrote => ?_) ?_
      · exact Prog.Aborts.ite (ih _ _) trivial
      · rintro ⟨_, ctx⟩ rfl
        rfl

theorem aborts_writePending (ctx : WriteContext) :
    (writePending part ctx).Aborts Call.Fails (·.1 = false) := by
  refine Prog.Aborts.ite ?_ trivial
  refine (aborts_writeBlock part _ _).bind (fun _ => trivial) ?_
  rintro ⟨_, ctx⟩ rfl
  rfl

theorem aborts_writePass (ctx : WriteContext) (data : Bytes) :
    (writePass part ctx data).Aborts Call.Fails (·.1 = false) := by
  refine (aborts_writePending part _).bind (fun wrote => ?_) ?_
  · exact Prog.Aborts.ite (aborts_writeDirect part _ _ _) trivial
  · rintro ⟨_, ctx⟩ rfl
    rfl

theorem aborts_mtdWriteData (ctx : WriteContext) (data : Bytes) :
    (mtdWriteData part ctx data).Aborts Call.Fails (·.1 = false) := by
  unfold mtdWriteData
  generalize data.length = fuel
  induction fuel generalizing ctx data with
  | zero => trivial
  | succ fuel ih =>
      unfold writeLoop
      refine Prog.Aborts.ite trivial ?_
      refine (aborts_writePass part _ _).bind (fun wrote => ?_) ?_
      · exact Prog.Aborts.ite (ih _ _) trivial
      · rintro ⟨_, ctx, data⟩ rfl
        rfl

theorem aborts_padPending (ctx : WriteContext) :
    (padPending part ctx).Aborts Call.Fails (·.1 = false) := by
  refine Prog.Aborts.ite ?_ trivial
  refine (aborts_writeBlock part _ _).bind (fun _ => trivial) ?_
  rintro ⟨_, ctx⟩ rfl
  rfl

theorem aborts_eraseLoop {bad : Nat → Prop} (blocks pos : Nat) :
    (eraseLoop part blocks pos).Aborts Call.Fails bad := by
  induction blocks generalizing pos with
  | zero => trivial
  | succ blocks ih =>
      unfold eraseLoop
      refine Prog.aborts_perform.bind (fun mark => ?_) (fun _ => False.elim)
      refine Prog.Aborts.ite (ih _) ?_
      exact Prog.aborts_perform.bind (fun _ => ih _) (fun _ => False.elim)

theorem aborts_mtdEraseBlocks (ctx : WriteContext) (blocks : Int) :
    (mtdEraseBlocks part ctx blocks).Aborts Call.Fails (·.1 = none) := by
  refine (aborts_padPending part ctx).bind (fun padded => ?_) ?_
  · refine Prog.Aborts.ite ?_ trivial
    refine Prog.aborts_perform.bind (fun pos => ?_) ?_
    · cases pos with
      | none => trivial
      | some pos =>
          refine Prog.Aborts.ite trivial ?_
          have herase : (eraseLoop part (if blocks < 0 then
              (((part.size - pos) / part.eraseSize : Nat) : Int)
              else blocks).toNat pos).Aborts Call.Fails (fun _ => False) :=
            aborts_eraseLoop part _ _
          exact herase.bind (fun _ => trivial) (fun _ => False.elim)
    · rintro _ rfl
      rfl
  · rintro ⟨_, ctx⟩ rfl
    rfl

theorem aborts_mtdWriteClose (ctx : WriteContext) :
    (mtdWriteClose part ctx).Aborts Call.Fails (· = false) := by
  refine (aborts_mtdEraseBlocks part ctx 0).bind (fun erased => ?_) ?_
  · refine Prog.aborts_perform.bind (fun _ => trivial) ?_
    rintro _ rfl
    simp [Prog.Yields]
  · rintro ⟨_, ctx⟩ rfl
    refine (Prog.yields_true _).bind fun closed _ => ?_
    rfl

theorem aborts_mtdWritePartition :
    mtdWritePartition.Aborts Call.Fails (· = none) := by
  refine Prog.aborts_perform.bind (fun opened => ?_) ?_
  · exact Prog.Aborts.ite trivial trivial
  · rintro _ rfl
    rfl

end Writer

end Mtd

end MetaOS
