import ScanTriage.Config

/-!
# Flags of a command line

Flags may stand anywhere among the arguments, `--` ends them, and a flag that
is given more than once has its last value. `Given.read` reads the arguments
from the left and stops at the first fault.
-/

namespace ScanTriage

namespace Cli

inductive FlagKind where
  /-- Needs no value, and may also be given by its letter. -/
  | switch (letter? : Option UInt8)
  | number
  | text
  deriving DecidableEq

structure FlagSpec where
  name : Bytes
  kind : FlagKind
  deriving DecidableEq

namespace FlagSpec

def isSwitch (spec : FlagSpec) : Bool :=
  match spec.kind with
  | .switch _ => true
  | _ => false

def letter? (spec : FlagSpec) : Option UInt8 :=
  match spec.kind with
  | .switch letter? => letter?
  | _ => none

def spelled (spec : FlagSpec) : Bytes :=
  match spec.letter? with
  | some letter => "-" ++ [letter] ++ ", --" ++ spec.name
  | none => "--" ++ spec.name

end FlagSpec

/-- The character that a letter is shown as: the first byte of its UTF-8 form,
taken for a character of its own. -/
def shownLetter (letter : UInt8) : Nat :=
  ((Utf8.encode letter.toNat).headD letter).toNat

inductive FlagFault where
  | malformed (argument : Bytes)
  | unknown (name : Bytes)
  | unknownLetter (letter : UInt8) (group : Bytes)
  | needsValue (spec : FlagSpec)
  | badSwitch (spec : FlagSpec) (value : Bytes)
  | badNumber (spec : FlagSpec) (value : Bytes) (why : Integer.Refusal)
  deriving DecidableEq

namespace FlagFault

def invalid (spec : FlagSpec) (value why : Bytes) : Bytes :=
  "invalid argument " ++ Text.quoted value ++ " for " ++ Text.quoted spec.spelled ++ " flag: " ++ why

def message : FlagFault → Bytes
  | malformed argument => "bad flag syntax: " ++ argument
  | unknown name => "unknown flag: --" ++ name
  | unknownLetter letter group =>
    "unknown shorthand flag: " ++ Text.quotedChar (shownLetter letter) ++ " in -" ++ group
  | needsValue spec => "flag needs an argument: --" ++ spec.name
  | badSwitch spec value =>
    invalid spec value ("strconv.ParseBool: parsing " ++ Text.quoted value ++ ": invalid syntax")
  | badNumber spec value why => invalid spec value (Layer.numeralFault value why).message

end FlagFault

inductive FlagValue where
  | switch (on : Bool)
  | number (value : Int64)
  | text (value : Bytes)
  deriving DecidableEq

def switchWord? (word : Bytes) : Option Bool :=
  if (["1", "t", "T", "true", "True", "TRUE"] : List Bytes).contains word then some true
  else if (["0", "f", "F", "false", "False", "FALSE"] : List Bytes).contains word then some false
  else none

def FlagSpec.readValue (spec : FlagSpec) (value : Bytes) : Except FlagFault FlagValue :=
  match spec.kind with
  | .switch _ =>
    match switchWord? value with
    | some on => .ok (.switch on)
    | none => .error (.badSwitch spec value)
  | .number =>
    match Integer.readLiteral value with
    | .ok n => .ok (.number n)
    | .error why => .error (.badNumber spec value why)
  | .text => .ok (.text value)

structure Given where
  /-- The values of flags, the latest first. -/
  settings : List (Bytes × FlagValue) := []
  /-- The other arguments in their order. -/
  arguments : List Bytes := []
  deriving DecidableEq

namespace Given

def add (g : Given) (spec : FlagSpec) (value : FlagValue) : Given :=
  { g with settings := (spec.name, value) :: g.settings }

/-- Gives a flag a value that has still to be read. -/
def set (g : Given) (spec : FlagSpec) (value : Bytes) : Except FlagFault Given :=
  (spec.readValue value).map (g.add spec)

/-- Letters after a single dash, each a switch; `=` after one ends them with a
value. Letters that start with `test.` belong to a test bench and are passed
over. -/
def readLetters (table : List FlagSpec) : Bytes → Given → Except FlagFault Given
  | [], g => .ok g
  | letter :: rest, g =>
    if ("test." : Bytes).isPrefixOf (letter :: rest) then .ok g
    else
      match table.find? (·.letter? == some letter) with
      | none => .error (.unknownLetter letter (letter :: rest))
      | some spec =>
        match rest with
        | Bytes.equals :: b :: value => g.set spec (b :: value)
        | _ => readLetters table rest (g.add spec (.switch true))

inductive Reading where
  /-- The flag waits for the next argument. -/
  | waiting (spec : FlagSpec)
  | taken (given : Given)

def readLong (table : List FlagSpec) (body : Bytes) (g : Given) : Except FlagFault Reading :=
  let find (name : Bytes) : Except FlagFault FlagSpec :=
    match table.find? (·.name == name) with
    | some spec => .ok spec
    | none => .error (.unknown name)
  if body.head? == some Bytes.minus || body.head? == some Bytes.equals then
    .error (.malformed ("--" ++ body))
  else
    match Bytes.cut? Bytes.equals body with
    | some (name, value) => do
      let spec ← find name
      let g ← g.set spec value
      .ok (.taken g)
    | none => do
      let spec ← find body
      .ok (if spec.isSwitch then .taken (g.add spec (.switch true)) else .waiting spec)

/-- Reads arguments; `waiting?` is a flag that takes the next one. -/
def readOnto (table : List FlagSpec) :
    (waiting? : Option FlagSpec) → List Bytes → Given → Except FlagFault Given
  | none, [], g => .ok g
  | some spec, [], _ => .error (.needsValue spec)
  | some spec, value :: rest, g => do
    let g ← g.set spec value
    readOnto table none rest g
  | none, [Bytes.minus, Bytes.minus] :: rest, g => .ok { g with arguments := g.arguments ++ rest }
  | none, (Bytes.minus :: Bytes.minus :: body) :: rest, g => do
    match ← readLong table body g with
    | .waiting spec => readOnto table (some spec) rest g
    | .taken g => readOnto table none rest g
  | none, (Bytes.minus :: b :: group) :: rest, g => do
    let g ← readLetters table (b :: group) g
    readOnto table none rest g
  | none, argument :: rest, g =>
    readOnto table none rest { g with arguments := g.arguments ++ [argument] }

def read (table : List FlagSpec) (arguments : List Bytes) : Except FlagFault Given :=
  readOnto table none arguments {}

/-! ## Values -/

def isOn (g : Given) (name : Bytes) : Bool := g.settings.lookup name == some (.switch true)

def switch? (g : Given) (name : Bytes) : Option Bool :=
  match g.settings.lookup name with
  | some (.switch on) => some on
  | _ => none

def number? (g : Given) (name : Bytes) : Option Int64 :=
  match g.settings.lookup name with
  | some (.number n) => some n
  | _ => none

def text? (g : Given) (name : Bytes) : Option Bytes :=
  match g.settings.lookup name with
  | some (.text s) => some s
  | _ => none

end Given

end Cli

end ScanTriage
