import StackFlow.Opcode
import StackFlow.Value

/-!
Instructions at their positions, their words, and the positions that their jump offsets lead to.
Targets are exact here. Those of a method are positions in its code (`Code.verify`); an instruction on
its own may have one that does not fit a signed word, and has no such jump then (`resolvedJump?`,
`resolvedTable?`).
-/
namespace StackFlow

/-- Largest target that fits a signed word. -/
def Code.maxTarget : Int := 9223372036854775807

inductive Operand
  | literal (w : Word)
  | value (v : Value)
  | offset (w : Word)
  deriving DecidableEq, Repr

namespace Operand

def kind : Operand → OperandKind
  | literal _ => .literal
  | value _ => .value
  | offset _ => .offset

def word : Operand → Word
  | literal w => w
  | value v => v.bits
  | offset w => w

def ofWord : OperandKind → Word → Operand
  | .literal, w => literal w
  | .value, w => value ⟨w⟩
  | .offset, w => offset w

@[simp] theorem kind_ofWord (k : OperandKind) (w : Word) : (ofWord k w).kind = k := by
  cases k <;> rfl

@[simp] theorem word_ofWord (k : OperandKind) (w : Word) : (ofWord k w).word = w := by
  cases k <;> rfl

@[simp] theorem ofWord_kind_word (o : Operand) : ofWord o.kind o.word = o := by
  cases o <;> rfl

end Operand

structure Instr where
  position : Nat
  opcode : Opcode
  operands : List Operand
  deriving DecidableEq, Repr

namespace Instr

/-- Length in words. -/
def size (i : Instr) : Nat := 1 + i.operands.length

/-- Position of the next instruction. -/
def next (i : Instr) : Nat := i.position + i.size

/-- The instruction as code words. -/
def encode (i : Instr) : List Word := i.opcode.word :: i.operands.map Operand.word

/-- Operand word in a slot, 0 past the last one. -/
def word (i : Instr) (slot : Nat) : Word := (i.operands[slot]?).elim 0 Operand.word

/-- Where an offset of this instruction leads. -/
def target (i : Instr) (offset : Word) : Int := i.next + offset.toInt64.toInt

/-- Where the offsets of the instruction lead, in operand order. -/
def targets (i : Instr) : List Int :=
  i.operands.filterMap fun
    | .offset w => some (i.target w)
    | _ => none

/-- A target as a position, if it is not negative. -/
def position? (t : Int) : Option Nat := if 0 ≤ t then some t.toNat else none

/-- Where a jump or a branch leads. -/
def jumpTarget? (i : Instr) : Option Nat := i.targets.head?.bind position?

/-- Keys and positions of a dispatch table, and the position for all other keys. -/
def entries? (i : Instr) : List Operand → Option (List (Value × Nat) × Nat)
  | [.offset w] => do return ([], ← position? (i.target w))
  | .value key :: .offset w :: rest => do
    let dest ← position? (i.target w)
    let (cases, other) ← i.entries? rest
    return ((key, dest) :: cases, other)
  | _ => none

def dispatchTable? (i : Instr) : Option (List (Value × Nat) × Nat) :=
  if i.opcode = .caseDispatch then i.entries? i.operands.tail else none

/-- A target as a signed word, if it is not too large for one. -/
def signed? (t : Int) : Option Int := if t ≤ Code.maxTarget then some t else none

/-- Where an offset of this instruction leads, as a signed word. -/
def resolve? (i : Instr) (offset : Word) : Option Int := signed? (i.target offset)

/-- Where the offsets of the instruction lead, as signed words. -/
def resolved (i : Instr) : List (Option Int) := i.targets.map signed?

/-- Where a jump or a branch leads, if that fits a signed word. -/
def resolvedJump? (i : Instr) : Option Nat := i.resolved.head?.join.bind position?

/-- The dispatch table, if all that it leads to fits signed words. -/
def resolvedTable? (i : Instr) : Option (List (Value × Nat) × Nat) :=
  if i.resolved.all Option.isSome then i.dispatchTable? else none

/-- The instruction transfers control. -/
def transfers (i : Instr) : Bool := i.opcode.control.isSome

@[simp] theorem length_encode (i : Instr) : i.encode.length = i.size := by
  simp [encode, size, Nat.add_comm]

theorem size_pos (i : Instr) : 0 < i.size := by
  simp only [size]; omega

theorem position_lt_next (i : Instr) : i.position < i.next := by
  have := i.size_pos
  simp only [next]; omega

end Instr

end StackFlow
