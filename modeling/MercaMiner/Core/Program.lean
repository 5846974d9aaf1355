import MercaMiner.Core.MinerConfig
import MercaMiner.Core.Startup

/-!
# The Program

The program from its arguments to its exit code, from `mine_loop.cpp` and
`miner_config.cpp`.

The arguments give a configuration, in the positional form or as options over
a file. The configuration gives a plan: the network, the connection to the
node and the settings. Then the program waits for the node, mines, and exits.

Beside the main thread there are a signal handler, which keeps the first
signal, and a monitor, which raises the shutdown flag when there was one. A
later signal changes nothing and is no step.

The exit code comes with the counters of the summary, if one was printed.

## Main definitions

* `Host`: What the program finds.
* `resolveStartupArguments`: From arguments to a configuration.
* `Plan`, `planProgram`: Up to the connection.
* `Program`, `programStep`, `programStart`: The whole program.
-/

namespace MercaMiner

open Outcome

/-- What is found under a path: its existence cannot be told, there is nothing,
    it cannot be opened, or it is read. -/
inductive HostFile where
  | uninspectable
  | missing
  | unopenable
  | contents (bytes : Text)

/-- The environment's `HOME`, the file system and the number of processors. -/
structure Host where
  home : Option Text
  file : Text → HostFile
  hardwareThreads : UInt64

def loadMinerConfigFile (host : Host) (path : Text) : Except Text MinerConfig :=
  match host.file path with
  | .contents bytes => (parseMinerConfigText bytes).mapError MinerConfigException.what
  | _ => .error (text "unable to open MercaMiner configuration file: " ++ path)

def minerConfigPathForHome (homeDirectory : Text) : Except Text Text :=
  if homeDirectory = [] then
    .error (text "HOME directory is empty; use --config to specify a configuration file")
  else .ok (joinPath (joinPath homeDirectory (text ".mercaminer")) (text "mercaminer.conf"))

def defaultMinerConfigPath (home : Option Text) : Except Text Text :=
  match home with
  | none | some [] =>
      .error (text "HOME is not set; use --config to specify a configuration file")
  | some home => minerConfigPathForHome home

/-- The configuration of the positional form. -/
def legacyConfig (network payoutAddress threads blocks : Text) (rpc : Option (Text × Text)) :
    Except MinerConfigException MinerConfig := do
  let threadCount ← parseMinerThreadCount threads
  let blockLimit ← parseMinerBlockLimit blocks
  return {
    network := some network
    payoutAddress := some payoutAddress
    threadCount := some threadCount
    blockLimit := some blockLimit
    reportInterval := none
    rpcUrl := rpc.map Prod.fst
    cookieFile := rpc.map Prod.snd }

/-- The two positional forms, which do not begin with an option. -/
def legacyPositional : List Text → Option (Except MinerConfigException MinerConfig)
  | [network, payoutAddress, threads, blocks] =>
      if (text "--").isPrefixOf network then none
      else some (legacyConfig network payoutAddress threads blocks none)
  | [network, rpcUrl, cookieFile, payoutAddress, threads, blocks] =>
      if (text "--").isPrefixOf network then none
      else some (legacyConfig network payoutAddress threads blocks (some (rpcUrl, cookieFile)))
  | _ => none

/-- The configuration of the file. The default file may be missing unless
    there are no arguments at all. -/
def baseConfig (host : Host) (configFile : Option Text) (requireDefault : Bool) :
    Except Text MinerConfig :=
  match configFile with
  | some path => loadMinerConfigFile host path
  | none => match defaultMinerConfigPath host.home with
    | .error e => if requireDefault then .error e else .ok emptyMinerConfig
    | .ok path => match host.file path with
      | .uninspectable =>
          .error (text "unable to inspect default MercaMiner configuration file: " ++ path)
      | .missing =>
          if requireDefault then
            .error (text "default MercaMiner configuration file not found: " ++ path)
          else .ok emptyMinerConfig
      | _ => loadMinerConfigFile host path

inductive StartupArguments where
  | showHelp
  | config (config : ResolvedMinerConfig)
  deriving DecidableEq

/-- The configuration of options, and of the file below them. -/
def resolveOptions (host : Host) (arguments : List Text) : Except Text StartupArguments := do
  let commandLine ← (parseMinerCommandLine arguments).mapError MinerConfigException.what
  if commandLine.showHelp then return .showHelp
  else
    let config ← baseConfig host commandLine.configFile arguments.isEmpty
    let resolved ← (resolveMinerConfig (mergeMinerConfig config commandLine.overrides)
      host.hardwareThreads).mapError MinerConfigException.what
    return .config resolved

/-- The arguments after the program's name. -/
def resolveStartupArguments (host : Host) (arguments : List Text) :
    Except Text StartupArguments :=
  match legacyPositional arguments with
  | some legacy => do
      let config ← legacy.mapError MinerConfigException.what
      let resolved ← (resolveMinerConfig config host.hardwareThreads).mapError
        MinerConfigException.what
      return .config resolved
  | none =>
      if arguments.head?.any (fun first => !(text "--").isPrefixOf first) then
        .error (text "invalid positional arguments; use --help for supported forms")
      else resolveOptions host arguments

/-- What is settled before the node is contacted. -/
structure Plan where
  network : NetworkRow
  connection : RpcConnectionSettings
  config : ResolvedMinerConfig

/-- The settings of the connection come together, or the local node is used. -/
def planConnection (host : Host) (network : NetworkRow) (config : ResolvedMinerConfig) :
    Except Text RpcConnectionSettings :=
  match config.rpcUrl, config.cookieFile with
  | some rpcUrl, some cookieFile => .ok ⟨rpcUrl, cookieFile⟩
  | _, _ => defaultLocalRpcConnection network host.home

/-- The exit codes of the handlers: one for a configuration, one for the rest. -/
def configurationError : Int := 2

def miningFailed : Int := 1

/-- Up to the connection, or to an early exit. -/
def planProgram (host : Host) (arguments : List Text) : Except Int Plan :=
  match resolveStartupArguments host arguments with
  | .error _ => .error configurationError
  | .ok .showHelp => .error 0
  | .ok (.config config) => match findNetworkRow config.network with
    | none => .error configurationError
    | some network =>
        if supportsDirectPowMining network then
          match planConnection host network config with
          | .error _ => .error miningFailed
          | .ok connection => .ok ⟨network, connection, config⟩
        else .error configurationError

/-- The signals that are handled. -/
inductive Signal where
  | interrupt
  | terminate
  deriving DecidableEq

def Signal.number : Signal → Int
  | interrupt => 2
  | terminate => 15

inductive ProgramPhase where
  | startup (plan : Plan) (s : StartupState)
  | mining (plan : Plan) (setup : SessionSetup) (s : Session)
  | exited (code : Int) (summary : Option RuntimeStats)

/-- `signal` is zero while there was none. -/
structure Program where
  signal : Int
  phase : ProgramPhase

/-- What can happen next: a signal arrives, the monitor looks, one of the
    threads moves while the program starts up or mines, or the main thread
    goes on to the next phase. -/
inductive ProgramAction where
  | deliver (signal : Signal)
  | monitor
  | startup (e : StartupEvent)
  | mining (a : SessionAction)
  | main

/-- The exit code of a shutdown. -/
def shutdownCode (signal : Int) : Int :=
  if signal ≠ 0 then 128 + signal else 0

/-- The miner is constructed, which needs a worker, and the loop is entered. -/
def enterMining (hashV1 : Bytes → UInt256) (plan : Plan) (cancelled : Flag)
    (state : StartupRpcState) : ProgramPhase :=
  if h : plan.config.threadCount ≠ 0 then
    let s := sessionStart plan.config.blockLimit state.payoutScript
    .mining plan ⟨plan.network.toNetworkIdentity, hashV1, plan.config.threadCount, h⟩
      { s with loop := { s.loop with shutdown := raised cancelled } }
  else .exited miningFailed none

/-- The main thread goes on after a phase. -/
def nextPhase (hashV1 : Bytes → UInt256) (signal : Int) : ProgramPhase → Option ProgramPhase
  | .startup plan s => match s.pc with
    | .returned state => some (enterMining hashV1 plan s.cancelled state)
    | .stopped => some (.exited (shutdownCode signal) (some ⟨0, 0, 0⟩))
    | .threw _ => some (.exited miningFailed none)
    | _ => none
  | .mining _ _ s => match s.loop.pc, s.watcher with
    | .exited .shutdownComplete, none =>
        some (.exited (shutdownCode signal) (some s.loop.stats))
    | .exited .requestedBlockCountReached, none => some (.exited 0 (some s.loop.stats))
    | .uncaught _, none => some (.exited miningFailed none)
    | _, _ => none
  | .exited _ _ => none

/-- The monitor raises the flag once, after a signal. -/
def monitorStep (signal : Int) (phase : ProgramPhase) : Option ProgramPhase :=
  if signal = 0 then none
  else match phase with
    | .startup plan s =>
        if raised s.cancelled then none
        else some (.startup plan { s with cancelled := some true })
    | .mining plan setup s =>
        (sessionStep setup s .raiseShutdown).map fun s => .mining plan setup s
    | .exited _ _ => none

def programStep (hashV1 : Bytes → UInt256) (p : Program) : ProgramAction → Option Program
  | .deliver signal => match p.phase with
    | .exited _ _ => none
    | _ => if p.signal = 0 then some { p with signal := signal.number } else none
  | .monitor => (monitorStep p.signal p.phase).map fun phase => { p with phase := phase }
  | .startup e => match p.phase with
    | .startup plan s =>
        (startupStep plan.network plan.connection plan.config.payoutAddress s e).map fun s =>
          { p with phase := .startup plan s }
    | _ => none
  | .mining .raiseShutdown => none
  | .mining a => match p.phase with
    | .mining plan setup s =>
        (sessionStep setup s a).map fun s => { p with phase := .mining plan setup s }
    | _ => none
  | .main => (nextPhase hashV1 p.signal p.phase).map fun phase => { p with phase := phase }

def programStart (host : Host) (arguments : List Text) : Program :=
  match planProgram host arguments with
  | .error code => ⟨0, .exited code none⟩
  | .ok plan => ⟨0, .startup plan (startupStart (some false))⟩

end MercaMiner
