import ScanTriage.Cli.Flag

/-!
# Requests

What a command line asks for. The command is the first argument that is
neither a flag nor the value of one, as far as the flags common to all commands
tell; `Request.ofArguments` then reads the remaining arguments with the flags of
that command.
-/

namespace ScanTriage

namespace Cli

def programName : Bytes := "wpcc-triage"

inductive Command where
  | annotate
  | completion
  | explain
  | help
  | rules
  | stats
  deriving DecidableEq

namespace Command

def name : Command → Bytes
  | annotate => "annotate"
  | completion => "completion"
  | explain => "explain"
  | help => "help"
  | rules => "rules"
  | stats => "stats"

def all : List Command := [annotate, completion, explain, help, rules, stats]

def ofName? (word : Bytes) : Option Command := all.find? (·.name == word)

def path (c : Command) : Bytes := programName ++ " " ++ c.name

def flags : Command → List FlagSpec
  | annotate =>
    [ ⟨"stdout", .switch none⟩, ⟨"max-findings", .number⟩, ⟨"workers", .number⟩,
      ⟨"trace", .switch none⟩, ⟨"no-history", .switch none⟩, ⟨"log-level", .text⟩,
      ⟨"log-format", .text⟩ ]
  | explain => [⟨"json", .switch none⟩, ⟨"trace", .switch none⟩]
  | stats => [⟨"json", .switch none⟩, ⟨"top", .number⟩]
  | rules => []
  | help => []
  | completion => []

end Command

/-- The flags that stand before or after any command. -/
def commonFlags : List FlagSpec := [⟨"root", .text⟩, ⟨"config", .text⟩]

def helpFlag : FlagSpec := ⟨"help", .switch (some 0x68)⟩

def versionFlag : FlagSpec := ⟨"version", .switch (some 0x76)⟩

inductive UsageFault where
  | flag (fault : FlagFault)
  | unknownCommand (word parent : Bytes)
  | notExactly (expected received : Nat)
  | moreThan (most received : Nat)
  deriving DecidableEq

def UsageFault.message : UsageFault → Bytes
  | flag fault => fault.message
  | unknownCommand word parent =>
    "unknown command " ++ Text.quoted word ++ " for " ++ Text.quoted parent
  | notExactly expected received =>
    "accepts " ++ Bytes.decimal expected ++ " arg(s), received " ++ Bytes.decimal received
  | moreThan most received =>
    "accepts at most " ++ Bytes.decimal most ++ " arg(s), received " ++ Bytes.decimal received

/-! ## Finding the command -/

/-- Whether an argument looks like a flag that takes the next argument. A flag
that is not common to all commands counts as one. -/
def takesNext (argument : Bytes) : Bool :=
  !argument.contains Bytes.equals &&
    match argument with
    | Bytes.minus :: Bytes.minus :: body => !commonFlags.any fun f => f.isSwitch && f.name == body
    | [Bytes.minus, _] => true
    | _ => false

/-- The first word among arguments, and the arguments without it; `skip` says
that the next argument belongs to a flag. -/
def splitWord? : (skip : Bool) → List Bytes → Option (Bytes × List Bytes)
  | _, [] => none
  | true, argument :: rest => (splitWord? false rest).map fun (w, more) => (w, argument :: more)
  | false, argument :: rest =>
    if argument == "--" then none
    else if takesNext argument then
      (splitWord? true rest).map fun (w, more) => (w, argument :: more)
    else if argument.isEmpty || argument.head? == some Bytes.minus then
      (splitWord? false rest).map fun (w, more) => (w, argument :: more)
    else some (argument, rest)

/-! ## Requests -/

/-- Where configuration is looked for; empty means the usual place. -/
structure Site where
  root : Bytes := []
  globalFile : Bytes := []
  deriving DecidableEq

structure AnnotateRequest where
  site : Site
  path : Bytes
  toOutput : Bool
  traced : Bool
  overrides : Layer.Overrides

structure ExplainRequest where
  /-- The file to read, or nothing for the standard input. -/
  source? : Option Bytes
  asJson : Bool
  traced : Bool
  deriving DecidableEq

structure StatsRequest where
  site : Site
  asJson : Bool
  /-- How many identifiers are listed; none of them is left out unless this is
  positive. -/
  top : Int64
  deriving DecidableEq

inductive Request where
  | version
  | help (topic? : Option Command)
  | annotate (request : AnnotateRequest)
  | explain (request : ExplainRequest)
  | rules
  | stats (request : StatsRequest)

namespace Request

def siteOf (g : Given) : Site := ⟨(g.text? "root").getD [], (g.text? "config").getD []⟩

def annotateOf (g : Given) : Except UsageFault Request :=
  match g.arguments with
  | [path] =>
    .ok (.annotate
      { site := siteOf g
        path := path
        toOutput := g.isOn "stdout"
        traced := g.isOn "trace"
        overrides :=
          { maxFindings := g.number? "max-findings"
            workers := g.number? "workers"
            logLevel := g.text? "log-level"
            logFormat := g.text? "log-format"
            historyEnabled := (g.switch? "no-history").map (!·) } })
  | arguments => .error (.notExactly 1 arguments.length)

def explainOf (g : Given) : Except UsageFault Request :=
  let request (source? : Option Bytes) : Request :=
    .explain ⟨source?.filter (· != "-"), g.isOn "json", g.isOn "trace"⟩
  match g.arguments with
  | [] => .ok (request none)
  | [source] => .ok (request (some source))
  | arguments => .error (.moreThan 1 arguments.length)

def alone (c : Command) (g : Given) (request : Request) : Except UsageFault Request :=
  match g.arguments with
  | [] => .ok request
  | word :: _ => .error (.unknownCommand word c.path)

def ofCommand (c : Command) (g : Given) : Except UsageFault Request :=
  if g.isOn "help" then .ok (.help (some c))
  else
    match c with
    | .annotate => annotateOf g
    | .explain => explainOf g
    | .rules => alone c g .rules
    | .stats =>
      alone c g (.stats ⟨siteOf g, g.isOn "json", (g.number? "top").getD 10⟩)
    | .help => .ok (.help (g.arguments.head?.bind Command.ofName?))
    | .completion => .ok (.help (some c))

def ofGiven (c : Command) (arguments : List Bytes) : Except UsageFault Request :=
  match Given.read (helpFlag :: c.flags ++ commonFlags) arguments with
  | .error fault => .error (.flag fault)
  | .ok g => ofCommand c g

/-- The request of a command line without a command. -/
def ofFlags (arguments : List Bytes) : Except UsageFault Request :=
  match Given.read (helpFlag :: versionFlag :: commonFlags) arguments with
  | .error fault => .error (.flag fault)
  | .ok g => .ok (if !g.isOn "help" && g.isOn "version" then .version else .help none)

def ofArguments (arguments : List Bytes) : Except UsageFault Request :=
  match splitWord? false arguments with
  | none => ofFlags arguments
  | some (word, rest) =>
    match Command.ofName? word with
    | some c => ofGiven c rest
    | none => .error (.unknownCommand word programName)

def readsInput : Request → Bool
  | explain request => request.source?.isNone
  | _ => false

end Request

end Cli

end ScanTriage
