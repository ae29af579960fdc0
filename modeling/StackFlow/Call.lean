import StackFlow.IR.Link

/-!
Calls of linked functions. A call forgets the exception that an earlier one left; one with a wrong
number of arguments is refused before that.
-/
namespace StackFlow

open IR (Executable Memory Outcome)

/-- A call of a function with a wrong number of arguments. -/
structure ArityMismatch where
  name : String
  expected : Nat
  got : Nat
  deriving DecidableEq, Repr

def ArityMismatch.message (e : ArityMismatch) : String :=
  s!"{e.name} expects {e.expected} arguments, got {e.got}"

inductive CallResult
  | value (v : Value)
  | trapped
  | refused (reason : ArityMismatch)
  /-- The call takes more blocks than it was given. -/
  | unfinished
  deriving DecidableEq, Repr

namespace IR.Executable

/-- Calls the function; arguments that are not given are 0. After a trap no exception waits. -/
def call (x : Executable) (receiver : Value) (args : List Value) (h : Host) (fuel : Nat)
    (memory : Memory := fun _ => none) : CallResult × Host :=
  match x.run ⟨receiver.bits, args.map Value.bits⟩ h.clear fuel memory with
  | some (.returned w, h) => (.value ⟨w⟩, h)
  | some (.trapped, h) => (.trapped, h.clear)
  | none => (.unfinished, h.clear)

/-- Calls the function with as many arguments as it has parameters. -/
def invoke (x : Executable) (receiver : Value) (args : List Value) (h : Host) (fuel : Nat)
    (memory : Memory := fun _ => none) : CallResult × Host :=
  if args.length = x.func.params then x.call receiver args h fuel memory
  else (.refused ⟨x.func.name, x.func.params, args.length⟩, h)

end IR.Executable

end StackFlow
