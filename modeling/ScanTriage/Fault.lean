import ScanTriage.Text.Bytes

/-!
# Faults

What can go wrong, as a chain from what the user is told down to the first
cause. A `user` fault shows only its own message; the cause is what a command
line prints as details.
-/

namespace ScanTriage

inductive Fault where
  /-- A message without a cause. -/
  | plain (message : Bytes)
  /-- The run was called off. -/
  | cancelled
  /-- Another run holds the lock. -/
  | locked
  /-- An annotated report is not what was to be written. -/
  | integrity (detail : Bytes)
  /-- A triage report contradicts itself. -/
  | inconsistent (detail : Bytes)
  /-- The work stopped in the middle without an answer. -/
  | aborted
  /-- A cause with a label in front. -/
  | labelled (label : Bytes) (cause : Fault)
  /-- A message for the user that keeps its cause apart. -/
  | user (message : Bytes) (cause : Fault)
  deriving DecidableEq

namespace Fault

def message : Fault → Bytes
  | plain message => message
  | cancelled => "context canceled"
  | locked => "report is locked by another run"
  | integrity detail => "annotated report failed verification: " ++ detail
  | inconsistent detail => "inconsistent triage report: " ++ detail
  | aborted => "aborted"
  | labelled label cause => label ++ ": " ++ cause.message
  | user message _ => message

def cause? : Fault → Option Fault
  | labelled _ cause => some cause
  | user _ cause => some cause
  | _ => none

/-- The cause behind the first message for the user. -/
def details? : Fault → Option Fault
  | user _ cause => some cause
  | labelled _ cause => cause.details?
  | _ => none

def root : Fault → Fault
  | labelled _ cause => cause.root
  | user _ cause => cause.root
  | fault => fault

def involves (fault : Fault) : Fault → Bool
  | labelled label cause => labelled label cause == fault || involves fault cause
  | user message cause => user message cause == fault || involves fault cause
  | other => other == fault

/-- A message for the user with its cause, or on its own. -/
def forUser (message : Bytes) : Option Fault → Fault
  | some cause => user message cause
  | none => plain message

end Fault

def Fault.messageOf : Option Fault → Bytes
  | some fault => fault.message
  | none => []

end ScanTriage
