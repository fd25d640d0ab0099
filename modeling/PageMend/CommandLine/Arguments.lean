/-!
# Arguments

`Command.ofArguments` reads the arguments of the command line from left to right. The first one
that makes no sense is refused, unless help is asked for before it. The value of an option stands
behind it, joined to it or as the next argument; behind two dashes everything is a directory.
-/

namespace PageMend.CommandLine

/-- The options that take a value. -/
inductive ValueOption where
  | config | report
  deriving DecidableEq, Repr

inductive Flag where
  | dryRun | noProgress | printDefaultConfig
  deriving DecidableEq, Repr

def ValueOption.name : ValueOption → String
  | .config => "--config"
  | .report => "--report"

def Flag.name : Flag → String
  | .dryRun => "--dry-run"
  | .noProgress => "--no-progress"
  | .printDefaultConfig => "--print-default-config"

/-- Why the arguments are refused. -/
inductive ArgumentError where
  | unexpected (argument : String)
  | missingValue (option : ValueOption)
  | surplusValue (argument : String)
  | repeated (name : String)
  | missingDirectory
  deriving DecidableEq, Repr

def ArgumentError.message : ArgumentError → String
  | .unexpected argument => "unexpected argument '" ++ argument ++ "'"
  | .missingValue option => "a value is required for '" ++ option.name ++ "'"
  | .surplusValue argument => "no value is allowed in '" ++ argument ++ "'"
  | .repeated name => "the argument '" ++ name ++ "' cannot be used more than once"
  | .missingDirectory => "an output directory is required"

/-! ### One argument -/

/-- What an argument says by itself. -/
inductive Argument where
  | directory (path : String)
  /-- Everything behind it is a directory. -/
  | separator
  | option (o : ValueOption) (value : Option String)
  | flag (f : Flag)
  | help
  | refused (e : ArgumentError)
  deriving DecidableEq, Repr

/-- Reads an argument behind its two dashes. -/
def Argument.ofLong (argument : String) (cs : List Char) : Argument :=
  let name := String.ofList (cs.takeWhile (· ≠ '='))
  let value :=
    match cs.dropWhile (· ≠ '=') with
    | [] => none
    | _ :: value => some (String.ofList value)
  let alone (a : Argument) : Argument :=
    if value.isSome then .refused (.surplusValue argument) else a
  if name = "config" then .option .config value
  else if name = "report" then .option .report value
  else if name = "dry-run" then alone (.flag .dryRun)
  else if name = "no-progress" then alone (.flag .noProgress)
  else if name = "print-default-config" then alone (.flag .printDefaultConfig)
  else if name = "help" then alone .help
  else .refused (.unexpected argument)

/-- What is joined to the letter of an option, if anything. An equals sign may stand between. -/
def joinedValue? : List Char → Option String
  | [] => none
  | '=' :: value => some (String.ofList value)
  | value => some (String.ofList value)

/-- Reads an argument. -/
def Argument.ofString (argument : String) : Argument :=
  match argument.toList with
  | ['-', '-'] => .separator
  | '-' :: '-' :: cs => .ofLong argument cs
  | '-' :: 'c' :: cs => .option .config (joinedValue? cs)
  | '-' :: 'r' :: cs => .option .report (joinedValue? cs)
  | '-' :: 'h' :: _ => .help
  | '-' :: _ :: _ => .refused (.unexpected argument)
  | _ => .directory argument

/-! ### All arguments -/

/-- What the arguments say. -/
structure Arguments where
  directory : Option String := none
  config : Option String := none
  report : Option String := none
  dryRun : Bool := false
  noProgress : Bool := false
  printDefaultConfig : Bool := false
  deriving DecidableEq, Repr

/-- Why the reading of arguments ends early. -/
inductive Interruption where
  | help
  | refused (e : ArgumentError)
  deriving DecidableEq, Repr

namespace Arguments

def setDirectory (a : Arguments) (path : String) : Except Interruption Arguments :=
  if a.directory.isSome then .error (.refused (.unexpected path))
  else .ok { a with directory := some path }

def setOption (a : Arguments) (o : ValueOption) (value : String) :
    Except Interruption Arguments :=
  let once (set : Option String) (b : Arguments) : Except Interruption Arguments :=
    if set.isSome then .error (.refused (.repeated o.name)) else .ok b
  match o with
  | .config => once a.config { a with config := some value }
  | .report => once a.report { a with report := some value }

def setFlag (a : Arguments) (f : Flag) : Except Interruption Arguments :=
  let once (set : Bool) (b : Arguments) : Except Interruption Arguments :=
    if set then .error (.refused (.repeated f.name)) else .ok b
  match f with
  | .dryRun => once a.dryRun { a with dryRun := true }
  | .noProgress => once a.noProgress { a with noProgress := true }
  | .printDefaultConfig => once a.printDefaultConfig { a with printDefaultConfig := true }

/-- Whether an argument can be the value of the option in front of it. A single dash can. -/
def isValue (argument : String) : Bool :=
  argument = "-" || argument.toList.head? ≠ some '-'

/-- Reads further arguments. -/
def read (a : Arguments) : List String → Except Interruption Arguments
  | [] => .ok a
  | argument :: rest =>
    match Argument.ofString argument with
    | .directory path => do read (← a.setDirectory path) rest
    | .separator => rest.foldlM setDirectory a
    | .option o (some value) => do read (← a.setOption o value) rest
    | .option o none =>
      match rest with
      | value :: rest =>
        if isValue value then do read (← a.setOption o value) rest
        else .error (.refused (.missingValue o))
      | [] => .error (.refused (.missingValue o))
    | .flag f => do read (← a.setFlag f) rest
    | .help => .error .help
    | .refused e => .error (.refused e)

end Arguments

/-! ### Commands -/

/-- How the pages of a directory are to be mended. -/
structure Options where
  /-- Where the configuration is. -/
  config : Option String := none
  /-- Where the report goes. -/
  report : Option String := none
  dryRun : Bool := false
  noProgress : Bool := false
  deriving DecidableEq, Repr

/-- What is to be done. -/
inductive Command where
  | help
  | printDefaultConfig
  | mend (directory : String) (options : Options)
  deriving DecidableEq, Repr

/-- The command that the arguments give. Only the default configuration needs no directory. -/
def Command.ofArguments (arguments : List String) : Except ArgumentError Command :=
  match Arguments.read {} arguments with
  | .error .help => .ok .help
  | .error (.refused e) => .error e
  | .ok a =>
    if a.printDefaultConfig then .ok .printDefaultConfig
    else
      match a.directory with
      | none => .error .missingDirectory
      | some directory =>
        .ok (.mend directory
          { config := a.config, report := a.report, dryRun := a.dryRun,
            noProgress := a.noProgress })

end PageMend.CommandLine
