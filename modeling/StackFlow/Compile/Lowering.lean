import StackFlow.Compile.OperandStack
import StackFlow.IR.Builder
import StackFlow.Method

/-!
Lowerings: the register code that stands for each instruction, and what it does to the operand stack.
-/
namespace StackFlow

open IR (Reg Builder)

/-- A part of compilation that adds to the function under construction. -/
abbrev Emit := StateT Builder (Except CompileError)

namespace Emit

def stmt (f : Builder → Reg × Builder) : Emit Reg := modifyGet f

def storeLocal (i : Nat) (v : Reg) : Emit Unit := modify (·.storeLocal i v)

def call (callee : String) (args : List Reg) : Emit Reg := fun b =>
  match b.call? callee args with
  | some result => .ok result
  | none => .error (.unresolvedExternal callee)

end Emit

/-- The transfers themselves belong to the walk over the blocks; of them a lowering gives only the
condition of a branch and the value that an exit returns. -/
structure Lowering where
  /-- Code at the entry, before the first instruction. -/
  prologue : Method → Emit Unit
  /-- An instruction that transfers no control. -/
  straight : Instr → OperandStack → Emit OperandStack
  /-- A register that is true if a branch on the value is taken. -/
  condition : BranchKind → Reg → Emit Reg
  /-- The value that an exit returns. -/
  result : ExitKind → Instr → Reg → Emit Reg

/-- The method that a specialised operator sends. -/
def Opcode.selector? : Opcode → Option Word
  | optPlus => some Selector.plus
  | optMinus => some Selector.minus
  | optMult => some Selector.mult
  | optLt => some Selector.lt
  | optLe => some Selector.le
  | optGt => some Selector.gt
  | optGe => some Selector.ge
  | optEq => some Selector.eq
  | _ => none

namespace Lowering

/-- Parameters come from the arguments of the call; every other local begins as `nil`. -/
def initLocals (m : Method) : Emit Unit :=
  (List.range m.locals).forM fun i => do
    let v ← Emit.stmt (if i < m.params then (·.arg i) else (·.value .nil))
    Emit.storeLocal i v

def pushStmt (f : Builder → Reg × Builder) (s : OperandStack) : Emit OperandStack := do
  s.push (← Emit.stmt f)

/-- Sends a method to the value below its arguments. -/
def send (selector : Word) (count : Nat) (s : OperandStack) : Emit OperandStack := do
  let (args, s) ← s.popN count
  let (receiver, s) ← s.pop
  let selector ← Emit.stmt (·.const selector)
  let result ← Emit.call (ExternTable.funcallName count) (receiver :: selector :: args)
  s.push result

def standardStraight (i : Instr) (s : OperandStack) : Emit OperandStack :=
  match i.opcode with
  | .nop | .trace => pure s
  | .putNil => pushStmt (·.value .nil) s
  | .putSelf => pushStmt (·.receiver) s
  | .putObject => pushStmt (·.const (i.word 0)) s
  | .putZero => pushStmt (·.value (.fixnum 0)) s
  | .putOne => pushStmt (·.value (.fixnum 1)) s
  | .pop => do return (← s.pop).2
  | .dup => do
    let (v, s) ← s.pop
    let s ← s.push v
    s.push v
  | .swap => do
    let (b, s) ← s.pop
    let (a, s) ← s.pop
    let s ← s.push b
    s.push a
  | .getLocal => pushStmt (·.loadLocal (i.word 0).toNat) s
  | .setLocal => do
    let (v, s) ← s.pop
    Emit.storeLocal (i.word 0).toNat v
    return s
  | .send => send (i.word 0) (i.word 1).toNat s
  | op =>
    match op.selector? with
    | some selector => send selector 1 s
    | none => throw (.unsupportedInstruction op i.position)

/-- A value is true if a bit other than the one of `nil` is set. -/
def standardCondition (kind : BranchKind) (v : Reg) : Emit Reg :=
  match kind with
  | .ifTrue => do
    let (masked, zero) ← truth
    Emit.stmt (·.ne masked zero)
  | .unlessTrue => do
    let (masked, zero) ← truth
    Emit.stmt (·.eq masked zero)
  | .ifNil => do
    let nil ← Emit.stmt (·.value .nil)
    Emit.stmt (·.eq v nil)
where
  truth : Emit (Reg × Reg) := do
    let mask ← Emit.stmt (·.const (~~~Value.nil.bits))
    let masked ← Emit.stmt (·.and v mask)
    let zero ← Emit.stmt (·.const 0)
    return (masked, zero)

def standardResult (kind : ExitKind) (i : Instr) (v : Reg) : Emit Reg :=
  match kind with
  | .leave => pure v
  | .throw => do
    let state ← Emit.stmt (·.const (i.word 0))
    Emit.call ExternTable.throwName [state, v]

def standard : Lowering := ⟨initLocals, standardStraight, standardCondition, standardResult⟩

end Lowering

end StackFlow
