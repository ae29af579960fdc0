import StackFlow.Code

/-!
Why a method cannot be compiled.
-/
namespace StackFlow

inductive CompileError
  | stackOverflow (max next : Nat)
  /-- `next` is the depth that would be left, as a signed word. -/
  | stackUnderflow (next : Int64)
  | unexpectedStackDepth (depth : Nat) (opcode : Opcode) (position : Nat)
  | unresolvedExternal (name : String)
  | unsupportedInstruction (opcode : Opcode) (position : Nat)
  | inconsistentMerge (position source : Nat)
  | code (error : CodeError)
  deriving DecidableEq, Repr

def CompileError.message : CompileError → String
  | stackOverflow max next => s!"stack overflow: max={max}, next size={next}"
  | stackUnderflow next => s!"stack underflow: next size={next.toInt}"
  | unexpectedStackDepth n op p =>
    s!"unexpected stack depth {n} at {op.mnemonic} (position {p}), expected 1"
  | unresolvedExternal name => s!"unresolved external function: {name}"
  | unsupportedInstruction op p => s!"unsupported instruction {op.mnemonic} at position {p}"
  | inconsistentMerge p source => s!"inconsistent merge into block {p} from edge at {source}"
  | code e => e.message

end StackFlow
