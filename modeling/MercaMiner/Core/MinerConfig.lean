import MercaMiner.Basis.Decimal
import MercaMiner.Basis.Lines
import MercaMiner.Basis.Outcome
import MercaMiner.Core.UInt256

/-!
# The Miner's Configuration

Reading, merging and resolving the settings of the miner, from
`miner_config.cpp`.

A setting comes from a configuration file or from the command line. Both are
read by hand-written loops over the same seven names, spelled as keys in one
and as options in the other, and the file's loop wraps what goes wrong in a
line into an error with the line's number. Strings are byte strings, and
`std::set` of the names seen so far is a list.

The number of hardware threads, which the default thread count depends on, is
an argument.

## Main definitions

* `MinerConfig`, `MinerCommandLine`, `ResolvedMinerConfig`: The records.
* `MinerConfigException`: The exceptions.
* `parseMinerConfigText`: Reading a file.
* `parseMinerCommandLine`: Reading arguments.
* `mergeMinerConfig`, `resolveMinerConfig`: From settings to a configuration.
-/

namespace MercaMiner

open Outcome

@[ext]
structure MinerConfig where
  network : Option Text
  payoutAddress : Option Text
  threadCount : Option UInt64
  blockLimit : Option UInt64
  reportInterval : Option UInt32
  rpcUrl : Option Text
  cookieFile : Option Text
  deriving DecidableEq

/-- A configuration as it is constructed. -/
def emptyMinerConfig : MinerConfig :=
  ⟨none, none, none, none, none, none, none⟩

structure MinerCommandLine where
  configFile : Option Text
  overrides : MinerConfig
  showHelp : Bool
  deriving DecidableEq

structure ResolvedMinerConfig where
  network : Text
  payoutAddress : Text
  threadCount : UInt64
  blockLimit : UInt64
  reportInterval : UInt32
  rpcUrl : Option Text
  cookieFile : Option Text
  deriving DecidableEq

/-- What can go wrong. The last one is another exception caught in a line of
    the file. -/
inductive MinerConfigException where
  | emptyNumber (description : String)
  | notUnsigned (description : String)
  | zeroThreadCount
  | reportIntervalTooLarge
  | positionalArgument (option : Text)
  | duplicateOption (option : Text)
  | unknownOption (option : Text)
  | missingValue (option : Text)
  | emptyOptionValue (option : Text)
  | networkRequired
  | payoutAddressRequired
  | threadsNotPositive
  | rpcWithoutCookie
  | emptyRpcUrl
  | emptyCookieFile
  | expectedKeyValue
  | emptyKey
  | emptyValue
  | duplicateKey (key : Text)
  | unknownKey (key : Text)
  | inLine (line : Nat) (error : MinerConfigException)
  deriving DecidableEq

def MinerConfigException.what : MinerConfigException → Text
  | emptyNumber description => text description ++ text " must not be empty"
  | notUnsigned description => text description ++ text " must be an unsigned integer"
  | zeroThreadCount => text "thread count must be a positive integer"
  | reportIntervalTooLarge => text "report interval is too large"
  | positionalArgument option =>
      text "unexpected positional argument '" ++ option ++
        text "'; use --help for supported forms"
  | duplicateOption option => text "duplicate command-line option '" ++ option ++ text "'"
  | unknownOption option => text "unknown command-line option '" ++ option ++ text "'"
  | missingValue option => text "missing value for command-line option '" ++ option ++ text "'"
  | emptyOptionValue option => text "empty value for command-line option '" ++ option ++ text "'"
  | networkRequired => text "network is required"
  | payoutAddressRequired => text "payout_address is required"
  | threadsNotPositive => text "threads must be positive when specified"
  | rpcWithoutCookie => text "rpc_url and cookie_file must be specified together"
  | emptyRpcUrl => text "rpc_url must not be empty"
  | emptyCookieFile => text "cookie_file must not be empty"
  | expectedKeyValue => text "expected key=value"
  | emptyKey => text "configuration key is empty"
  | emptyValue => text "configuration value is empty"
  | duplicateKey key => text "duplicate configuration key '" ++ key ++ text "'"
  | unknownKey key => text "unknown configuration key '" ++ key ++ text "'"
  | inLine line error =>
      text "mercaminer.conf line " ++ Decimal.numeral line ++ text ": " ++ error.what

/-- The characters `Trim` takes off. -/
def isWhitespace (b : UInt8) : Bool :=
  b == ' '.toUInt8 || b == '\t'.toUInt8 || b == '\r'.toUInt8 || b == '\n'.toUInt8

def trim (value : Text) : Text :=
  Lines.strip isWhitespace value

def newline : UInt8 := '\n'.toUInt8

def equalsSign : UInt8 := '='.toUInt8

def hashSign : UInt8 := '#'.toUInt8

/-- `std::from_chars` for a `std::uint64_t`: the value, if the digits at the
    start denote one, and the text from where it stopped. -/
def fromChars (value : Text) : Option UInt64 × Text :=
  let digits := value.takeWhile Decimal.isDigit
  if digits = [] then (none, value)
  else if Decimal.value digits < 2 ^ 64 then
    (some (UInt64.ofNat (Decimal.value digits)), value.dropWhile Decimal.isDigit)
  else (none, value.dropWhile Decimal.isDigit)

def parseUnsigned (value : Text) (description : String) :
    Except MinerConfigException UInt64 := do
  check (value ≠ []) (.emptyNumber description)
  -- A sign, a blank or anything after the digits is an error.
  match fromChars value with
  | (some number, []) => return number
  | _ => throw (.notUnsigned description)

def parseMinerThreadCount (value : Text) : Except MinerConfigException UInt64 := do
  let number ← parseUnsigned value "thread count"
  -- The second test never succeeds, since a size has 64 bits.
  check (¬(number = 0 ∨ number > 0xffffffffffffffff)) .zeroThreadCount
  return number

def selectDefaultMinerThreadCount (hardwareThreads : UInt64) : UInt64 :=
  let maxDefaultThreads : UInt64 := 8
  if hardwareThreads = 0 then 1
  else if hardwareThreads > maxDefaultThreads then maxDefaultThreads
  else hardwareThreads

def parseMinerBlockLimit (value : Text) : Except MinerConfigException UInt64 :=
  parseUnsigned value "block limit"

def parseMinerReportInterval (value : Text) : Except MinerConfigException UInt32 := do
  let number ← parseUnsigned value "report interval"
  check (¬number > 0xffffffff) .reportIntervalTooLarge
  return number.toUInt32

/-- The options that take a value. -/
def knownOptions : List Text :=
  [text "--config", text "--network", text "--payout-address", text "--threads",
    text "--block-limit", text "--report-interval", text "--rpc-url", text "--cookie-file"]

/-- Store the value of an option. -/
def storeOption (result : MinerCommandLine) (option value : Text) :
    Except MinerConfigException MinerCommandLine := do
  if option = text "--config" then
    return { result with configFile := some value }
  else if option = text "--network" then
    return { result with overrides := { result.overrides with network := some value } }
  else if option = text "--payout-address" then
    return { result with overrides := { result.overrides with payoutAddress := some value } }
  else if option = text "--threads" then
    let number ← parseMinerThreadCount value
    return { result with overrides := { result.overrides with threadCount := some number } }
  else if option = text "--block-limit" then
    let number ← parseMinerBlockLimit value
    return { result with overrides := { result.overrides with blockLimit := some number } }
  else if option = text "--report-interval" then
    let number ← parseMinerReportInterval value
    return { result with overrides := { result.overrides with reportInterval := some number } }
  else if option = text "--rpc-url" then
    return { result with overrides := { result.overrides with rpcUrl := some value } }
  else if option = text "--cookie-file" then
    return { result with overrides := { result.overrides with cookieFile := some value } }
  else return result

/-- The loop over the arguments, with the options seen so far. -/
def parseArguments : List Text → MinerCommandLine → List Text →
    Except MinerConfigException MinerCommandLine
  | [], result, _ => .ok result
  | option :: rest, result, seen =>
      if ¬(text "--").isPrefixOf option then .error (.positionalArgument option)
      else if option = text "--help" then
        if option ∈ seen then .error (.duplicateOption option)
        else parseArguments rest { result with showHelp := true } (option :: seen)
      else if option ∉ knownOptions then .error (.unknownOption option)
      -- An option counts as seen before its value is looked at.
      else if option ∈ seen then .error (.duplicateOption option)
      else match rest with
        | [] => .error (.missingValue option)
        | value :: rest =>
            if value = [] then .error (.emptyOptionValue option)
            else match storeOption result option value with
              | .error e => .error e
              | .ok result => parseArguments rest result (option :: seen)

def parseMinerCommandLine (args : List Text) : Except MinerConfigException MinerCommandLine :=
  parseArguments args ⟨none, emptyMinerConfig, false⟩ []

def mergeMinerConfig (base overrides : MinerConfig) : MinerConfig :=
  let base :=
    if overrides.network.isSome then { base with network := overrides.network } else base
  let base :=
    if overrides.payoutAddress.isSome then { base with payoutAddress := overrides.payoutAddress }
    else base
  let base :=
    if overrides.threadCount.isSome then { base with threadCount := overrides.threadCount }
    else base
  let base :=
    if overrides.blockLimit.isSome then { base with blockLimit := overrides.blockLimit } else base
  let base :=
    if overrides.reportInterval.isSome then
      { base with reportInterval := overrides.reportInterval }
    else base
  let base :=
    if overrides.rpcUrl.isSome then { base with rpcUrl := overrides.rpcUrl } else base
  if overrides.cookieFile.isSome then { base with cookieFile := overrides.cookieFile } else base

/-- A setting that must be there and not be empty. -/
def required (value : Option Text) (missing : MinerConfigException) :
    Except MinerConfigException Text :=
  match value with
  | none => .error missing
  | some value => if value = [] then .error missing else .ok value

def resolveMinerConfig (config : MinerConfig) (hardwareThreads : UInt64) :
    Except MinerConfigException ResolvedMinerConfig := do
  let network ← required config.network .networkRequired
  let payoutAddress ← required config.payoutAddress .payoutAddressRequired
  check (config.threadCount ≠ some 0) .threadsNotPositive
  -- The connection takes both settings or neither.
  check (config.rpcUrl.isSome = config.cookieFile.isSome) .rpcWithoutCookie
  check (config.rpcUrl ≠ some []) .emptyRpcUrl
  check (config.cookieFile ≠ some []) .emptyCookieFile
  return {
    network := network
    payoutAddress := payoutAddress
    threadCount := config.threadCount.getD (selectDefaultMinerThreadCount hardwareThreads)
    blockLimit := config.blockLimit.getD 0
    reportInterval := config.reportInterval.getD 30
    rpcUrl := config.rpcUrl
    cookieFile := config.cookieFile }

/-- Store the value of a key. -/
def storeKey (config : MinerConfig) (key value : Text) :
    Except MinerConfigException MinerConfig := do
  if key = text "network" then
    return { config with network := some value }
  else if key = text "payout_address" then
    return { config with payoutAddress := some value }
  else if key = text "threads" then
    let number ← parseMinerThreadCount value
    return { config with threadCount := some number }
  else if key = text "block_limit" then
    let number ← parseMinerBlockLimit value
    return { config with blockLimit := some number }
  else if key = text "report_interval" then
    let number ← parseMinerReportInterval value
    return { config with reportInterval := some number }
  else if key = text "rpc_url" then
    return { config with rpcUrl := some value }
  else if key = text "cookie_file" then
    return { config with cookieFile := some value }
  else throw (.unknownKey key)

/-- A line before and after its first equals sign. -/
def splitLine (line : Text) : Option (Text × Text) :=
  match line.span (· ≠ equalsSign) with
  | (_, []) => none
  | (key, _ :: value) => some (key, value)

/-- A line without content. -/
def isSkipped (line : Text) : Bool :=
  line.isEmpty || line.head? == some hashSign

/-- One line of the file, with the keys seen so far. -/
def parseConfigLine (lineNumber : Nat) (rawLine : Text) (config : MinerConfig)
    (seen : List Text) : Except MinerConfigException (MinerConfig × List Text) :=
  let line := trim rawLine
  if isSkipped line then .ok (config, seen)
  else match splitLine line with
    | none => .error (.inLine lineNumber .expectedKeyValue)
    | some (before, after) =>
        let key := trim before
        let value := trim after
        if key = [] then .error (.inLine lineNumber .emptyKey)
        else if value = [] then .error (.inLine lineNumber .emptyValue)
        -- Unknown keys count as seen too.
        else if key ∈ seen then .error (.inLine lineNumber (.duplicateKey key))
        else match storeKey config key value with
          | .error e => .error (.inLine lineNumber e)
          | .ok config => .ok (config, key :: seen)

/-- The loop over the lines. -/
def parseConfigLines : Nat → List Text → MinerConfig → List Text →
    Except MinerConfigException MinerConfig
  | _, [], config, _ => .ok config
  | lineNumber, rawLine :: rest, config, seen =>
      match parseConfigLine (lineNumber + 1) rawLine config seen with
      | .error e => .error e
      | .ok (config, seen) => parseConfigLines (lineNumber + 1) rest config seen

def parseMinerConfigText (configText : Text) : Except MinerConfigException MinerConfig :=
  parseConfigLines 0 (Lines.lines newline configText) emptyMinerConfig []

example : (parseMinerConfigText (text "# test\n network = regtest\r\n\nthreads=6")).toOption =
    some { emptyMinerConfig with network := some (text "regtest"), threadCount := some 6 } := by
  decide +kernel

end MercaMiner
