import StackFlow.Compile.Error
import StackFlow.IR.Func

/-!
The operand stack at compile time: which register holds the value of each slot.
-/
namespace StackFlow

open IR (Reg)

structure OperandStack where
  /-- Registers of the slots, the top one first. -/
  regs : List Reg := []
  max : Nat
  deriving DecidableEq, Repr

namespace OperandStack

def depth (s : OperandStack) : Nat := s.regs.length

def isEmpty (s : OperandStack) : Bool := s.regs.isEmpty

def top? (s : OperandStack) : Option Reg := s.regs.head?

def bottomFirst (s : OperandStack) : List Reg := s.regs.reverse

def push (s : OperandStack) (r : Reg) : Except CompileError OperandStack :=
  if s.max ≤ s.depth then .error (.stackOverflow s.max (s.depth + 1))
  else .ok { s with regs := r :: s.regs }

def pop (s : OperandStack) : Except CompileError (Reg × OperandStack) :=
  match s.regs with
  | [] => .error (.stackUnderflow (-1))
  | r :: regs => .ok (r, { s with regs })

/-- The top `n` registers, the lowest of them first. -/
def popN (s : OperandStack) (n : Nat) : Except CompileError (List Reg × OperandStack) :=
  if s.depth < n then .error (.stackUnderflow (Int64.ofNat s.depth - Int64.ofNat n))
  else .ok ((s.regs.take n).reverse, { s with regs := s.regs.drop n })

/-- Without its top, where there is one. -/
def dropTop (s : OperandStack) : OperandStack := { s with regs := s.regs.tail }

end OperandStack

end StackFlow
