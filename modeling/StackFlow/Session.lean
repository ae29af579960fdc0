import StackFlow.Toolchain

/-!
Requests to compiled methods, one after the other. An exception waits until it is taken or a method
is called again.
-/
namespace StackFlow

open IR (Executable Memory)

/-- A method made callable with the standard functions of the host. -/
structure Callable where
  engine : Engine
  method : Method
  executable : Executable
  standard : engine.externs = .standard
  made : (engine.compile method).result = .ok executable

inductive Request
  /-- Calls a method, which may execute up to `fuel` blocks and finds `memory`. -/
  | invoke (k : Callable) (receiver : Value) (args : List Value) (fuel : Nat)
      (memory : Memory := fun _ => none)
  /-- Takes the exception that waits. -/
  | take

inductive Reply
  | called (result : CallResult)
  | taken (exception : Option Value)
  deriving DecidableEq, Repr

def Request.serve (h : Host) : Request → Reply × Host
  | invoke k receiver args fuel memory =>
    let (result, h) := k.executable.invoke receiver args h fuel memory
    (.called result, h)
  | take =>
    let (exception, h) := h.take
    (.taken exception, h)

/-- A request with its reply, and the host before and after it. -/
structure Exchange where
  request : Request
  before : Host
  reply : Reply
  after : Host

def Host.serveAll (h : Host) : List Request → List Exchange
  | [] => []
  | request :: rest =>
    let (reply, h') := request.serve h
    ⟨request, h, reply, h'⟩ :: h'.serveAll rest

end StackFlow
