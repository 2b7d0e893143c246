/-
bootable/recovery/recovery.c: from the arguments to the reboot.

What happens outside this file is a call: the control block, the command file,
the roots and packages, the screen and the keys.  Formatting a root and
installing a package take their time; each is a call where it begins and one
where it is finished, so that a run can be cut off between them.

A loop that may go on for ever runs as often as its fuel says, and the program
has no result when that is used up.
-/
import MetaOS.ProgramLogic
import MetaOS.RecoveryArgs

namespace MetaOS

namespace RecoveryMain

open CString Bootloader RecoveryArgs

/-- What a command asks for. -/
inductive Work where
  | formatRoot (root : Bytes)
  | installPackage (rootPath : Bytes)
  deriving DecidableEq

inductive Icon where
  | installing | error

/-- Calls outside of recovery.c. -/
inductive Call where
  | getBootloaderMessage
  | setBootloaderMessage (boot : BootloaderMessage)
  | readCommandFile
  | writeIntentFile (sendIntent : Bytes)
  | copyLog
  | unlinkCommandFile
  | sync
  | reboot
  | start (work : Work)
  | finish (work : Work)
  | initServer
  | propertyGet (key default : Bytes)
  | runScript (path : Bytes)
  | uiPrint (text : Bytes)
  | uiSetBackground (icon : Icon)
  | uiShowProgress (seconds : Nat)
  | uiShowIndeterminateProgress
  | uiResetProgress
  | uiClearKeyQueue
  | uiStartMenu (items : List Bytes)
  | uiMenuSelect (sel : Int)
  | uiEndMenu
  | uiWaitKey
  | uiTextVisible

/-- A status is zero when all went well. -/
@[reducible] def Call.Answer : Call → Type
  | getBootloaderMessage => Option BootloaderMessage
  | readCommandFile => Option Bytes
  | finish _ | initServer | uiMenuSelect _ | uiWaitKey => Int
  | propertyGet _ _ => Bytes
  | uiTextVisible => Bool
  | setBootloaderMessage _ | writeIntentFile _ | copyLog | unlinkCommandFile
  | sync | reboot | start _ | runScript _ | uiPrint _ | uiSetBackground _
  | uiShowProgress _ | uiShowIndeterminateProgress | uiResetProgress
  | uiClearKeyQueue | uiStartMenu _ | uiEndMenu => Unit

abbrev Program := Prog Call Call.Answer

def ask (c : Call) : Program c.Answer := Prog.perform c

def INSTALL_SUCCESS : Int := 0
def INSTALL_ERROR : Int := 1

def uiPrint (text : String) : Program Unit := ask (.uiPrint (.ofString text))

/-- What the options ask for. -/
structure Options where
  sendIntent : Option Bytes
  updatePackage : Option Bytes
  wipeData : Bool
  wipeCache : Bool
  socketServer : Bool

def Options.initial : Options := ⟨none, none, false, false, false⟩

/-- `OPTIONS`: a name, whether an argument is required, and the character. -/
def options : List (Bytes × Bool × Char) :=
  [(.ofString "send_intent", true, 's'),
    (.ofString "update_package", true, 'u'),
    (.ofString "wipe_data", false, 'w'),
    (.ofString "wipe_cache", false, 'c'),
    (.ofString "socket_server", false, 'v')]

/-- The option with this name, or the only one whose name begins with it. -/
def findOption (name : Bytes) : Option (Bool × Char) :=
  match options.find? fun option => option.1 == name with
  | some option => some option.2
  | none =>
      match options.filter fun option => name.isPrefixOf option.1 with
      | [option] => some option.2
      | _ => none

/-- `getopt_long(argc, argv, "", OPTIONS, NULL)`, called until it returns -1:
each character with its argument, and nothing for a `?`.  Arguments that are no
options are passed over; an option may be waiting for its argument. -/
def getoptLong : (waiting : Option Char) → List Bytes →
    List (Option (Char × Bytes))
  | none, [] => []
  | some _, [] => [none]
  | some c, optarg :: args => some (c, optarg) :: getoptLong none args
  | none, [45, 45] :: _ => []
  | none, (45 :: 45 :: body) :: args =>
      match findOption (body.takeWhile (· != 61)),
        body.dropWhile (· != 61) with
      | none, _ => none :: getoptLong none args
      | some (false, c), [] => some (c, []) :: getoptLong none args
      | some (false, _), _ :: _ => none :: getoptLong none args
      | some (true, c), _ :: optarg => some (c, optarg) :: getoptLong none args
      | some (true, c), [] => getoptLong (some c) args
  | none, (45 :: c :: cluster) :: args =>
      List.replicate (c :: cluster).length none ++ getoptLong none args
  | none, _ :: args => getoptLong none args

/-- The cases of the switch. -/
def Options.set (opts : Options) : Char × Bytes → Options
  | ('s', optarg) => { opts with sendIntent := some optarg }
  | ('u', optarg) => { opts with updatePackage := some optarg }
  | ('w', _) => { opts with wipeData := true, wipeCache := true }
  | ('c', _) => { opts with wipeCache := true }
  | ('v', _) => { opts with socketServer := true }
  | _ => opts

/-- The options of a command line. -/
def parseOptions (args : List Arg) : Options :=
  ((getoptLong none (args.map Subtype.val)).filterMap id).foldl Options.set
    Options.initial

/-- `get_args`: nothing is returned when it crashes. -/
def getArgs (line : CommandLine) : Program (Option CommandLine) := do
  let stored ← ask .getBootloaderMessage
  let booted :=
    fromBoot line (stored.getD BootloaderMessage.zero).recovery
  let commandFile ←
    if booted.1.args = [] then ask .readCommandFile else pure none
  match RecoveryArgs.getArgs line stored commandFile with
  | none => pure none
  | some (line, boot) => do
      ask (.setBootloaderMessage boot)
      pure (some line)

/-- `finish_recovery` -/
def finishRecovery (sendIntent : Option Bytes) : Program Unit := do
  match sendIntent with
  | none => pure ()
  | some sendIntent => ask (.writeIntentFile sendIntent)
  ask .copyLog
  ask (.setBootloaderMessage .zero)
  ask .unlinkCommandFile
  ask .sync

/-- `set_sdcard_update_bootloader_message` -/
def setSdcardUpdateBootloaderMessage : Program Unit :=
  ask (.setBootloaderMessage
    (writeBack .zero BootloaderMessage.zero.recovery
      BootloaderMessage.zero.recovery_length []))

def perform (work : Work) : Program Int := do
  ask (.start work)
  ask (.finish work)

def DATA : Bytes := .ofString "DATA:"
def CACHE : Bytes := .ofString "CACHE:"
def SDCARD_PACKAGE_FILE : Bytes := .ofString "SDCARD:update.zip"

/-- `erase_root` -/
def eraseRoot (root : Bytes) : Program Int := do
  ask (.uiSetBackground .installing)
  ask .uiShowIndeterminateProgress
  ask (.uiPrint (.ofString "Formatting " ++ root ++ .ofString "...\n"))
  perform (.formatRoot root)

def installPackage (rootPath : Bytes) : Program Int :=
  perform (.installPackage rootPath)

def KEY_ENTER : Int := 28
def KEY_UP : Int := 103
def KEY_DOWN : Int := 108
def KEY_VOLUMEDOWN : Int := 114
def KEY_VOLUMEUP : Int := 115

def NO_ACTION : Int := -1
def HIGHLIGHT_UP : Int := -2
def HIGHLIGHT_DOWN : Int := -3
def SELECT_ITEM : Int := -4

def deviceHandleKey (key : Int) (visible : Bool) : Int :=
  if visible then
    if key = KEY_DOWN ∨ key = KEY_VOLUMEDOWN then HIGHLIGHT_DOWN
    else if key = KEY_UP ∨ key = KEY_VOLUMEUP then HIGHLIGHT_UP
    else if key = KEY_ENTER then SELECT_ITEM
    else NO_ACTION
  else NO_ACTION

def devicePerformAction (which : Int) : Int := which

def deviceWipeData : Int := 0

def ITEM_REBOOT : Int := 0
def ITEM_APPLY_SDCARD : Int := 1
def ITEM_WIPE_DATA : Int := 2
def ITEM_WIPE_CACHE : Int := 3
def ITEM_UPDATE_SYSTEM : Int := 4

def MENU_ITEMS : List Bytes :=
  [.ofString "reboot system now", .ofString "apply sdcard:update.zip",
    .ofString "wipe data/factory reset", .ofString "run update script"]

/-- The loop of `get_menu_selection`. -/
def selectItem (menuOnly : Bool) : (fuel : Nat) → (selected : Int) →
    Program (Option Int)
  | 0, _ => pure none
  | fuel + 1, selected => do
      let (key : Int) ← ask .uiWaitKey
      let (visible : Bool) ← ask .uiTextVisible
      let action := deviceHandleKey key visible
      if action < 0 then
        if action = HIGHLIGHT_UP then
          let (selected : Int) ← ask (.uiMenuSelect (selected - 1))
          selectItem menuOnly fuel selected
        else if action = HIGHLIGHT_DOWN then
          let (selected : Int) ← ask (.uiMenuSelect (selected + 1))
          selectItem menuOnly fuel selected
        else if action = SELECT_ITEM ∧ 0 ≤ selected then pure (some selected)
        else selectItem menuOnly fuel selected
      else if menuOnly then selectItem menuOnly fuel selected
      else pure (some action)

def getMenuSelection (fuel : Nat) (items : List Bytes) (menuOnly : Bool) :
    Program (Option Int) := do
  ask .uiClearKeyQueue
  ask (.uiStartMenu items)
  (selectItem menuOnly fuel 0).andThen fun chosenItem => do
    ask .uiEndMenu
    pure (some chosenItem)

/-- The items of `wipe_data`. -/
def wipeItems : List Bytes :=
  List.replicate 7 (.ofString " No") ++
    [.ofString " Yes -- delete all user data"] ++
    List.replicate 3 (.ofString " No")

/-- What `wipe_data` does once it is sure. -/
def wipe : Program (Option Unit) := do
  uiPrint "\n-- Wiping data...\n"
  let _ ← eraseRoot DATA
  let _ ← eraseRoot CACHE
  uiPrint "Data wipe complete.\n"
  pure (some ())

/-- `wipe_data` -/
def wipeData (fuel : Nat) (confirm : Bool) : Program (Option Unit) :=
  if confirm then
    (getMenuSelection fuel wipeItems true).andThen fun chosenItem =>
      if chosenItem ≠ 7 then pure (some ()) else wipe
  else wipe

/-- `is_internet_connected` -/
def isInternetConnected : Program Bool := do
  let (gateway : Bytes) ←
    ask (.propertyGet (.ofString "net.rmnet0.gw") (.ofString "1"))
  pure (decide (gateway.length ≠ 1))

/-- `is_connect_retry_needed` -/
def isConnectRetryNeeded : Program Bool := do
  let (retry : Bytes) ←
    ask (.propertyGet (.ofString "init.connect.retry") (.ofString "0"))
  pure (decide (retry ≠ .ofString "0"))

/-- The loop that connects. -/
def connect : (fuel : Nat) → Program (Option Unit)
  | 0 => pure none
  | fuel + 1 => do
      ask (.runScript (.ofString "/system/etc/init.connect"))
      if ← isConnectRetryNeeded then connect fuel else pure (some ())

/-- `enter_remote_update` -/
def enterRemoteUpdate (fuel : Nat) : Program (Option Unit) :=
  (getMenuSelection fuel [.ofString "TNOS 1.0", .ofString "TNOS 1.1"]
    false).andThen fun chosenItem => do
      if chosenItem = 0 then
        ask (.runScript (.ofString "/system/etc/tnosupdate.sh"))
      else if chosenItem = 1 then
        ask (.runScript (.ofString "/system/etc/tnosupdate-1.sh"))
      pure (some ())

/-- What is done for an item, and whether the menu is left. -/
def performItem (fuel : Nat) (chosenItem : Int) : Program (Option Bool) := do
  if chosenItem = ITEM_REBOOT then pure (some true)
  else if chosenItem = ITEM_WIPE_DATA then
    let (confirm : Bool) ← ask .uiTextVisible
    (wipeData fuel confirm).andThen fun _ => do
      let (visible : Bool) ← ask .uiTextVisible
      pure (some !visible)
  else if chosenItem = ITEM_WIPE_CACHE then
    uiPrint "\n-- Wiping cache...\n"
    let _ ← eraseRoot CACHE
    uiPrint "Cache wipe complete.\n"
    let (visible : Bool) ← ask .uiTextVisible
    pure (some !visible)
  else if chosenItem = ITEM_APPLY_SDCARD then
    uiPrint "\n-- Install from sdcard...\n"
    setSdcardUpdateBootloaderMessage
    let status ← installPackage SDCARD_PACKAGE_FILE
    if status ≠ INSTALL_SUCCESS then
      ask (.uiSetBackground .error)
      uiPrint "Installation aborted.\n"
      pure (some false)
    else
      let (visible : Bool) ← ask .uiTextVisible
      if visible then
        uiPrint "\nInstall from sdcard complete.\n"
        pure (some false)
      else pure (some true)
  else if chosenItem = ITEM_UPDATE_SYSTEM then
    uiPrint "\n-- Running update script...\n"
    let connected ← isInternetConnected
    (if connected then pure (some ()) else connect fuel).andThen fun _ =>
      (enterRemoteUpdate fuel).andThen fun _ => pure (some false)
  else pure (some false)

/-- `prompt_and_wait` -/
def promptAndWait : (fuel : Nat) → Program (Option Unit)
  | 0 => pure none
  | fuel + 1 => do
      finishRecovery none
      ask .uiResetProgress
      (getMenuSelection fuel MENU_ITEMS false).andThen fun chosenItem =>
        (performItem fuel (devicePerformAction chosenItem)).andThen
          fun leave => if leave then pure (some ()) else promptAndWait fuel

def VERIFICATION_PROGRESS_TIME : Nat := 60

/-- The status so far, and whether a step went wrong. -/
def orError (status result : Int) : Int :=
  if result ≠ 0 then INSTALL_ERROR else status

/-- `--socket_server` -/
def serve (fuel : Nat) (sendIntent : Option Bytes) :
    Program (Option Int) := do
  uiPrint "Enter socket server.\n"
  ask (.uiSetBackground .installing)
  ask (.uiShowProgress VERIFICATION_PROGRESS_TIME)
  let _ ← eraseRoot CACHE
  finishRecovery sendIntent
  let (status : Int) ← ask .initServer
  (promptAndWait fuel).andThen fun _ => pure (some status)

/-- `--wipe_data` -/
def wipeDataAndCache (wipeCache : Bool) : Program Int := do
  let status := orError INSTALL_SUCCESS deviceWipeData
  let data ← eraseRoot DATA
  let status := orError status data
  let status ←
    if wipeCache then do
      let cache ← eraseRoot CACHE
      pure (orError status cache)
    else pure status
  if status ≠ INSTALL_SUCCESS then uiPrint "Data wipe failed.\n"
  pure status

/-- `--wipe_cache` -/
def wipeCacheOnly : Program Int := do
  let cache ← eraseRoot CACHE
  let status := orError INSTALL_SUCCESS cache
  if status ≠ INSTALL_SUCCESS then uiPrint "Cache wipe failed.\n"
  pure status

/-- What the options ask for; the result is the status. -/
def runCommand (fuel : Nat) (opts : Options) : Program (Option Int) :=
  if opts.socketServer then serve fuel opts.sendIntent
  else
    match opts.updatePackage with
    | some updatePackage => do
        let status ← installPackage updatePackage
        if status ≠ INSTALL_SUCCESS then uiPrint "Installation aborted.\n"
        pure (some status)
    | none =>
        if opts.wipeData then some <$> wipeDataAndCache opts.wipeCache
        else if opts.wipeCache then some <$> wipeCacheOnly
        else pure (some INSTALL_ERROR)

/-- From the status to the reboot. -/
def leave (fuel : Nat) (sendIntent : Option Bytes) (status : Int) :
    Program (Option Unit) := do
  if status ≠ INSTALL_SUCCESS then ask (.uiSetBackground .error)
  let prompt ←
    if status ≠ INSTALL_SUCCESS then pure true else ask .uiTextVisible
  (if prompt = true then promptAndWait fuel else pure (some ())).andThen
    fun _ => do
      finishRecovery sendIntent
      uiPrint "Rebooting...\n"
      ask .sync
      ask .reboot
      pure (some ())

/-- A message for each `?`. -/
def complain : List (Option (Char × Bytes)) → Program Unit
  | [] => pure ()
  | none :: found => do
      uiPrint "E:Invalid command argument\n"
      complain found
  | some _ :: found => complain found

def main (fuel : Nat) (line : CommandLine) : Program (Option Unit) :=
  (getArgs line).andThen fun line => do
    complain (getoptLong none (line.args.map Subtype.val))
    let opts := parseOptions line.args
    (runCommand fuel opts).andThen (leave fuel opts.sendIntent)

end RecoveryMain

end MetaOS
