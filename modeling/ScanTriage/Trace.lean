import ScanTriage.Text.Bytes

/-!
# Trace output

What a run writes when it is asked to show every rule it tried: section
headers, blocks of marked lines, and plain text.
-/

namespace ScanTriage

inductive TraceStep where
  | section (name : Bytes)
  | print (text : Bytes)
  | block (lines : List Bytes)
  deriving DecidableEq

namespace TraceStep

/-- What every marked line starts with. -/
def mark : Bytes := "[wpcc:trace]"

def render : TraceStep → Bytes
  | .section name => "\n" ++ mark ++ " === " ++ name ++ " ===\n"
  | print text => text
  | block lines => lines.flatMap fun line => mark ++ " " ++ line ++ "\n"

end TraceStep

inductive Tracer where
  | absent
  | silent
  | writing
  deriving DecidableEq

namespace Tracer

def isEnabled : Tracer → Bool
  | writing => true
  | _ => false

def write (tracer : Tracer) (step : TraceStep) : Bytes :=
  if tracer.isEnabled then step.render else []

end Tracer

end ScanTriage
