/-
A command is carried out although recovery is cut off.

The comment at the top of recovery.c asks that a factory reset and the
installation of a package can be restarted at any point.  A boot runs recovery
without arguments and is cut off anywhere, also while a root is formatted or a
package is installed; the next boot starts from the control block and the
command file that the one before has left.  The control block is a faithful
store; of the command file nothing is assumed once there is work in progress.
-/
import MetaOS.RecoveryMain

namespace MetaOS

namespace RecoveryMain

open CString Bootloader RecoveryArgs Prog

/-- What is left when recovery is cut off. -/
structure Device where
  stored : Option BootloaderMessage
  commandFile : Option Bytes

/-- The device, and what has been finished in this boot. -/
abbrev State := Device × List Work

def sem : Semantics Call Call.Answer State
  | .getBootloaderMessage, s, r, s' => r = s.1.stored ∧ s' = s
  | .setBootloaderMessage boot, s, _, s' =>
      s' = ({ s.1 with stored := some boot }, s.2)
  | .readCommandFile, s, r, s' => r = s.1.commandFile ∧ s' = s
  | .finish work, s, _, s' => s' = (s.1, s.2 ++ [work])
  | .unlinkCommandFile, s, _, s' | .start _, s, _, s' | .initServer, s, _, s'
  | .runScript _, s, _, s' => s'.1.stored = s.1.stored ∧ s'.2 = s.2
  | _, s, _, s' => s' = s

/-- What the options ask for, in order. -/
def Options.work (opts : Options) : List Work :=
  if opts.socketServer then [.formatRoot CACHE]
  else
    match opts.updatePackage with
    | some updatePackage => [.installPackage updatePackage]
    | none =>
        if opts.wipeData then
          .formatRoot DATA ::
            if opts.wipeCache then [.formatRoot CACHE] else []
        else if opts.wipeCache then [.formatRoot CACHE]
        else []

/-- A boot without arguments finds these in the control block or in the command
file. -/
def Pending (args : List Arg) (d : Device) : Prop :=
  ∀ argv0, ∃ found boot,
    RecoveryArgs.getArgs ⟨argv0, []⟩ d.stored d.commandFile =
      some (found, boot) ∧ found.args = args

/-- A boot that is cut off: what it has finished, and what it leaves. -/
def Boot (d : Device) (works : List Work) (d' : Device) : Prop :=
  ∃ fuel argv0 rest,
    Reaches sem (main fuel ⟨argv0, []⟩, (d, [])) (rest, (d', works))

section Calls

/-- Calls that neither write the control block nor finish work. -/
def Quiet : Call → Prop
  | .setBootloaderMessage _ | .finish _ => False
  | _ => True

variable {s s' : State}

theorem sem_quiet {c : Call} {r : c.Answer} (hc : Quiet c)
    (hsem : sem c s r s') : s'.1.stored = s.1.stored ∧ s'.2 = s.2 := by
  cases c with
  | setBootloaderMessage boot => exact hc.elim
  | finish work => exact hc.elim
  | getBootloaderMessage | readCommandFile =>
      rw [hsem.2]
      exact ⟨rfl, rfl⟩
  | unlinkCommandFile | start | initServer | runScript => exact hsem
  | _ =>
      cases hsem
      exact ⟨rfl, rfl⟩

/-- What has been finished stays so. -/
theorem sem_extends {c : Call} {r : c.Answer} (hsem : sem c s r s') :
    s.2 <+: s'.2 := by
  by_cases hc : Quiet c
  · rw [(sem_quiet hc hsem).2]
  · cases c with
    | finish work =>
        rw [hsem]
        exact List.prefix_append _ _
    | setBootloaderMessage boot => rw [hsem]
    | _ => exact absurd trivial hc

end Calls

section Kept

variable {args : List Arg}

/-- `get_args` has written the arguments to the control block. -/
def Kept (args : List Arg) (d : Device) : Prop :=
  ∃ boot recovery, ∃ hrecovery : recovery.length = 1024,
    d.stored = some (writeBack boot recovery hrecovery args)

theorem Kept.pending (hne : args ≠ []) (hundamaged : Undamaged args)
    {d : Device} (hkept : Kept args d) : Pending args d := by
  obtain ⟨boot, recovery, hrecovery, hstored⟩ := hkept
  intro argv0
  rw [hstored]
  obtain ⟨found, boot', hget, hfound⟩ :=
    (restart_iff boot hrecovery hne).mpr hundamaged argv0 d.commandFile
  exact ⟨found, boot', hget, hfound⟩

theorem Kept.of_stored {d d' : Device} (hkept : Kept args d)
    (hstored : d'.stored = d.stored) : Kept args d' := by
  obtain ⟨boot, recovery, hrecovery, hkept⟩ := hkept
  exact ⟨boot, recovery, hrecovery, hstored.trans hkept⟩

/-- What `get_args` writes. -/
theorem kept_of_getArgs {line found : CommandLine}
    {stored : Option BootloaderMessage} {commandFile : Option Bytes}
    {boot : BootloaderMessage}
    (hget : RecoveryArgs.getArgs line stored commandFile =
      some (found, boot)) (commandFile' : Option Bytes) :
    Kept found.args ⟨some boot, commandFile'⟩ := by
  obtain ⟨recovery, hrecovery, heq⟩ := getArgs_eq line stored commandFile
  rw [hget, eq_comm, Option.map_eq_some_iff] at heq
  obtain ⟨line', -, hpair⟩ := heq
  obtain ⟨rfl, rfl⟩ := Prod.mk.inj hpair
  exact ⟨_, recovery, hrecovery, rfl⟩

/-- The command file plays no role where the control block has arguments. -/
theorem getArgs_commandFile {line : CommandLine}
    {stored : Option BootloaderMessage} (commandFile : Option Bytes)
    (hsome : (fromBoot line
      (stored.getD BootloaderMessage.zero).recovery).1.args ≠ []) :
    RecoveryArgs.getArgs line stored none =
      RecoveryArgs.getArgs line stored commandFile := by
  unfold RecoveryArgs.getArgs
  dsimp only
  rw [fromCommandFile_of_ne_nil hsome, fromCommandFile_of_ne_nil hsome]

end Kept

section Run

variable {args : List Arg} {d : Device} {works : List Work}

/-- Before the arguments are written nothing has happened; from then on they
stay in the control block and what is finished is a first part of the work,
until all of it is finished. -/
def Inv (args : List Arg) (works : List Work) (d : Device) (s : State) :
    Prop :=
  s = (d, []) ∨ (Kept args s.1 ∧ s.2 <+: works) ∨ works <+: s.2

/-- So much of the work is finished. -/
def Finished (args : List Arg) (done : List Work) (s : State) : Prop :=
  Kept args s.1 ∧ s.2 = done

theorem Finished.inv {done : List Work} {s : State} (hdone : done <+: works)
    (hfinished : Finished args done s) : Inv args works d s :=
  .inr (.inl ⟨hfinished.1, hfinished.2 ▸ hdone⟩)

/-- A part of the program between two pieces of work. -/
theorem quiet_safe {α : Type} {done : List Work} {prog : Program α}
    {s : State} (hprog : prog.Issues Quiet) (hdone : done <+: works)
    (hs : Finished args done s) :
    Safe sem (Inv args works d) (fun _ => Finished args done) prog s := by
  have hsafe : Safe sem (Finished args done) (fun _ _ => True) prog s := by
    refine Safe.of_issues (fun hquiet hinv hsem => ?_) hprog hs
    obtain ⟨hstored, hworks⟩ := sem_quiet hquiet hsem
    exact ⟨hinv.1.of_stored hstored, hworks.trans hinv.2⟩
  exact hsafe.mono (fun _ hinv => hinv.inv hdone) fun _ _ hinv _ => hinv

theorem perform_safe {done : List Work} {work : Work} {s : State}
    (hdone : done ++ [work] <+: works) (hs : Finished args done s) :
    Safe sem (Inv args works d) (fun _ => Finished args (done ++ [work]))
      (perform work) s := by
  have hbefore : done <+: works := (List.prefix_append _ _).trans hdone
  refine ⟨hs.inv hbefore, fun _ s' hsem => ?_⟩
  obtain ⟨hstored, hworks⟩ := sem_quiet (c := .start work) trivial hsem
  have hs' : Finished args done s' :=
    ⟨hs.1.of_stored hstored, hworks.trans hs.2⟩
  refine ⟨hs'.inv hbefore, fun _ s'' hsem' => ?_⟩
  have hs'' : Finished args (done ++ [work]) s'' := by
    cases hsem'
    exact ⟨hs'.1, congrArg (· ++ [work]) hs'.2⟩
  exact ⟨hs''.inv hdone, hs''⟩

theorem eraseRoot_safe {done : List Work} {root : Bytes} {s : State}
    (hdone : done ++ [.formatRoot root] <+: works)
    (hs : Finished args done s) :
    Safe sem (Inv args works d)
      (fun _ => Finished args (done ++ [.formatRoot root]))
      (eraseRoot root) s := by
  have hquiet : (ask (.uiSetBackground .installing) >>= fun _ =>
      ask .uiShowIndeterminateProgress >>= fun _ => ask (.uiPrint
        (.ofString "Formatting " ++ root ++ .ofString "...\n"))).Issues
          Quiet := ⟨trivial, fun _ => ⟨trivial, fun _ => ⟨trivial, fun _ =>
            trivial⟩⟩⟩
  have hsafe := quiet_safe (d := d) hquiet
    ((List.prefix_append _ _).trans hdone) hs
  exact hsafe.bind fun _ _ _ hs' => perform_safe hdone hs'

/-- Once all is finished it stays so. -/
theorem done_safe {α : Type} (prog : Program α) {s : State}
    (hs : works <+: s.2) :
    Safe sem (Inv args works d) (fun _ s => works <+: s.2) prog s := by
  have hissues : prog.Issues fun _ => True := by
    induction prog with
    | ret value => trivial
    | call c next ih => exact ⟨trivial, ih⟩
  have hsafe : Safe sem (fun s => works <+: s.2) (fun _ _ => True) prog s :=
    Safe.of_issues (fun _ hinv hsem => hinv.trans (sem_extends hsem)) hissues
      hs
  exact hsafe.mono (fun _ hinv => .inr (.inr hinv)) fun _ _ hinv _ => hinv

theorem Finished.done {s : State} (hs : Finished args works s) :
    works <+: s.2 := by
  rw [hs.2]

/-- `--wipe_data` -/
theorem wipeDataAndCache_safe (wipeCache : Bool) {s : State}
    (hs : Finished args [] s)
    (hworks : works = .formatRoot DATA ::
      if wipeCache then [.formatRoot CACHE] else []) :
    Safe sem (Inv args works d) (fun _ s => works <+: s.2)
      (wipeDataAndCache wipeCache) s := by
  have hdata : [] ++ [.formatRoot DATA] <+: works := by
    rw [hworks]
    exact List.prefix_append [_] _
  unfold wipeDataAndCache
  dsimp only
  refine (eraseRoot_safe hdata hs).bind fun data s' _ hs' => ?_
  cases wipeCache with
  | false =>
      have hdone : works <+: s'.2 := by
        rw [hs'.2, hworks]
        exact List.prefix_rfl
      exact done_safe _ hdone
  | true =>
      have hcache : ([] ++ [.formatRoot DATA]) ++ [.formatRoot CACHE] =
          works := hworks.symm
      rw [if_pos rfl]
      refine (eraseRoot_safe (hcache ▸ List.prefix_rfl) hs').bind
        fun cache s'' _ hs'' => ?_
      have hdone : works <+: s''.2 := by
        rw [hs''.2, hcache]
      exact done_safe _ hdone

/-- `--socket_server` -/
theorem serve_safe (fuel : Nat) (sendIntent : Option Bytes) {s : State}
    (hs : Finished args [] s) :
    Safe sem (Inv args [.formatRoot CACHE] d)
      (fun _ s => [.formatRoot CACHE] <+: s.2) (serve fuel sendIntent) s := by
  have hquiet : ∀ (c : Call) {s : State}, Quiet c → Finished args [] s →
      Safe sem (Inv args [.formatRoot CACHE] d) (fun _ => Finished args [])
        (ask c) s :=
    fun _ _ hc hs => quiet_safe (issues_perform hc) List.nil_prefix hs
  unfold serve
  refine (hquiet (.uiPrint _) trivial hs).bind fun _ _ _ hprinted => ?_
  refine (hquiet (.uiSetBackground _) trivial hprinted).bind
    fun _ _ _ hset => ?_
  refine (hquiet (.uiShowProgress _) trivial hset).bind
    fun _ _ _ hshown => ?_
  refine (eraseRoot_safe List.prefix_rfl hshown).bind fun _ _ _ herased => ?_
  exact done_safe _ herased.done

/-- Whatever the options ask for is finished when the command has been run. -/
theorem runCommand_safe (fuel : Nat) (opts : Options) {s : State}
    (hs : Finished args [] s) :
    Safe sem (Inv args opts.work d) (fun _ s => opts.work <+: s.2)
      (runCommand fuel opts) s := by
  unfold runCommand Options.work
  by_cases hserver : opts.socketServer = true
  · rw [if_pos hserver, if_pos hserver]
    exact serve_safe fuel opts.sendIntent hs
  · rw [if_neg hserver, if_neg hserver]
    cases opts.updatePackage with
    | some updatePackage =>
        exact (perform_safe (by exact List.prefix_rfl) hs).bind
          fun _ _ _ hs' => done_safe _ hs'.done
    | none =>
        dsimp only
        by_cases hdata : opts.wipeData = true
        · rw [if_pos hdata, if_pos hdata, ← bind_pure_comp]
          exact (wipeDataAndCache_safe opts.wipeCache hs rfl).bind
            fun _ _ _ hs' => done_safe _ hs'
        · rw [if_neg hdata, if_neg hdata]
          by_cases hcache : opts.wipeCache = true
          · rw [if_pos hcache, if_pos hcache, ← bind_pure_comp]
            unfold wipeCacheOnly
            rw [bind_assoc]
            exact (eraseRoot_safe (by exact List.prefix_rfl) hs).bind
              fun _ _ _ hs' => done_safe _ hs'.done
          · rw [if_neg hcache, if_neg hcache]
            exact done_safe _ List.nil_prefix

/-- `get_args` finds the arguments and writes them to the control block. -/
theorem getArgs_safe {args : List Arg} {d : Device} (works : List Work)
    (hpending : Pending args d) (argv0 : Arg) :
    Safe sem (Inv args works d)
      (fun line s => ∃ found, line = some found ∧ found.args = args ∧
        Finished args [] s) (getArgs ⟨argv0, []⟩) (d, []) := by
  obtain ⟨found, boot, hget, hfound⟩ := hpending argv0
  have hstart : Inv args works d (d, []) := .inl rfl
  have hwrite : Safe sem (Inv args works d)
      (fun line s => ∃ found, line = some found ∧ found.args = args ∧
        Finished args [] s)
      (do
        ask (.setBootloaderMessage boot)
        pure (some found) : Program (Option CommandLine)) (d, []) := by
    refine ⟨hstart, fun _ s hsem => ?_⟩
    cases hsem
    have hkept := kept_of_getArgs hget d.commandFile
    rw [hfound] at hkept
    have hfinished : Finished args []
        ({ d with stored := some boot }, ([] : List Work)) := ⟨hkept, rfl⟩
    exact ⟨hfinished.inv List.nil_prefix, found, rfl, hfound, hfinished⟩
  unfold getArgs
  refine ⟨hstart, fun stored s hsem => ?_⟩
  obtain ⟨rfl, rfl⟩ := hsem
  unfold Prog.bind
  dsimp only
  split
  · refine ⟨hstart, fun commandFile s hsem => ?_⟩
    obtain ⟨rfl, rfl⟩ := hsem
    dsimp only [Prog.bind]
    rw [hget]
    exact hwrite
  · rename_i hsome
    rw [pure_bind, (getArgs_commandFile d.commandFile hsome).trans hget]
    exact hwrite

/-- A boot that may be cut off anywhere. -/
theorem main_safe {args : List Arg} {d : Device} (hpending : Pending args d)
    (fuel : Nat) (argv0 : Arg) :
    Safe sem (Inv args (parseOptions args).work d) (fun _ _ => True)
      (main fuel ⟨argv0, []⟩) (d, []) := by
  unfold main
  refine (getArgs_safe _ hpending argv0).bind fun line s _ hline => ?_
  obtain ⟨found, rfl, rfl, hs⟩ := hline
  dsimp only
  have hcomplain : ∀ found, (complain found).Issues Quiet := by
    intro found
    induction found with
    | nil => trivial
    | cons entry found ih =>
        cases entry with
        | none => exact ⟨trivial, fun _ => ih⟩
        | some entry => exact ih
  refine (quiet_safe (hcomplain _) List.nil_prefix hs).bind
    fun _ s' _ hs' => ?_
  refine (runCommand_safe fuel _ hs').bind fun _ s'' _ hdone => ?_
  exact (done_safe _ hdone).mono (fun _ hinv => hinv) fun _ _ _ _ => trivial

theorem Boot.inv {args : List Arg} {d d' : Device} {works : List Work}
    (hpending : Pending args d) (hboot : Boot d works d') :
    Inv args (parseOptions args).work d (d', works) := by
  obtain ⟨fuel, argv0, rest, hreach⟩ := hboot
  exact (main_safe hpending fuel argv0).inv_of_reaches hreach

end Run

namespace RecoveryRestartWitness

/-- The main system has written its command and the control block is clear. -/
def device : Device := ⟨some .zero, some (.ofString "--wipe_data\n")⟩

/-- All goes well, and the text is not visible. -/
def handler : (c : Call) → State → c.Answer × State
  | .getBootloaderMessage, s => (s.1.stored, s)
  | .setBootloaderMessage boot, s =>
      ((), { s.1 with stored := some boot }, s.2)
  | .readCommandFile, s => (s.1.commandFile, s)
  | .finish work, s => ((0 : Int), s.1, s.2 ++ [work])
  | .initServer, s | .uiMenuSelect _, s | .uiWaitKey, s => ((0 : Int), s)
  | .propertyGet _ default, s => (default, s)
  | .uiTextVisible, s => (false, s)
  | .unlinkCommandFile, s => ((), { s.1 with commandFile := none }, s.2)
  | .writeIntentFile _, s | .copyLog, s | .sync, s | .reboot, s | .start _, s
  | .runScript _, s | .uiPrint _, s | .uiSetBackground _, s
  | .uiShowProgress _, s | .uiShowIndeterminateProgress, s
  | .uiResetProgress, s | .uiClearKeyQueue, s | .uiStartMenu _, s
  | .uiEndMenu, s => ((), s)

theorem handler_sem (c : Call) (s : State) :
    sem c s (handler c s).1 (handler c s).2 := by
  cases c with
  | getBootloaderMessage | readCommandFile => exact ⟨rfl, rfl⟩
  | unlinkCommandFile | start | initServer | runScript => exact ⟨rfl, rfl⟩
  | _ => rfl

/-- The state when recovery has run to its end. -/
def ended : State := ((main 0 ⟨strdup [], []⟩).eval handler (device, [])).2

example : ended.2 = [.formatRoot DATA, .formatRoot CACHE] := by
  decide +kernel

end RecoveryRestartWitness

end RecoveryMain

end MetaOS
