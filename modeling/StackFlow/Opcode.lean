import StackFlow.Numeral

/-!
Operation codes: their words, mnemonics, operands, stack effects, and which of them transfer control.
-/
namespace StackFlow

/-- What an operand word stands for. -/
inductive OperandKind
  | literal
  | value
  /-- A signed distance from the end of the instruction. -/
  | offset
  deriving DecidableEq, Repr

inductive BranchKind
  | ifTrue
  | unlessTrue
  | ifNil
  deriving DecidableEq, Repr

inductive ExitKind
  | leave
  | throw
  deriving DecidableEq, Repr

/-- How an instruction that ends a block hands control on. -/
inductive Control
  | jump
  | branch (kind : BranchKind)
  | dispatch
  | exit (kind : ExitKind)
  deriving DecidableEq, Repr

inductive Opcode
  | nop | trace
  | putNil | putSelf | putObject | putZero | putOne | putString | newArray
  | pop | dup | swap | getLocal | setLocal
  | send | optPlus | optMinus | optMult | optLt | optLe | optGt | optGe | optEq
  | leave | throw | jump | branchIf | branchUnless | branchNil | caseDispatch
  deriving DecidableEq, Repr

namespace Opcode

/-- All operation codes; the word of each is its index. -/
def all : List Opcode :=
  [nop, trace, putNil, putSelf, putObject, putZero, putOne, putString, newArray, pop, dup, swap,
    getLocal, setLocal, send, optPlus, optMinus, optMult, optLt, optLe, optGt, optGe, optEq, leave,
    throw, jump, branchIf, branchUnless, branchNil, caseDispatch]

def word (op : Opcode) : Word := UInt64.ofNat (all.idxOf op)

def ofWord? (w : Word) : Option Opcode := all[w.toNat]?

def mnemonic : Opcode → String
  | nop => "nop"
  | trace => "trace"
  | putNil => "putnil"
  | putSelf => "putself"
  | putObject => "putobject"
  | putZero => "putobject_INT2FIX_0_"
  | putOne => "putobject_INT2FIX_1_"
  | putString => "putstring"
  | newArray => "newarray"
  | pop => "pop"
  | dup => "dup"
  | swap => "swap"
  | getLocal => "getlocal"
  | setLocal => "setlocal"
  | send => "send"
  | optPlus => "opt_plus"
  | optMinus => "opt_minus"
  | optMult => "opt_mult"
  | optLt => "opt_lt"
  | optLe => "opt_le"
  | optGt => "opt_gt"
  | optGe => "opt_ge"
  | optEq => "opt_eq"
  | leave => "leave"
  | throw => "throw"
  | jump => "jump"
  | branchIf => "branchif"
  | branchUnless => "branchunless"
  | branchNil => "branchnil"
  | caseDispatch => "opt_case_dispatch"

def ofMnemonic? (s : String) : Option Opcode := all.find? (·.mnemonic == s)

/-- Operand kinds, or `none` where the number of operands is itself an operand. -/
def layout : Opcode → Option (List OperandKind)
  | trace | newArray | getLocal | setLocal | throw => some [.literal]
  | putObject | putString => some [.value]
  | send => some [.value, .literal]
  | jump | branchIf | branchUnless | branchNil => some [.offset]
  | caseDispatch => none
  | _ => some []

/-- Values taken from the stack and values put on it, where the opcode alone tells. -/
def effect : Opcode → Option (Nat × Nat)
  | nop | trace | jump => some (0, 0)
  | putNil | putSelf | putObject | putZero | putOne | putString | getLocal => some (0, 1)
  | pop | setLocal => some (1, 0)
  | dup => some (1, 2)
  | swap => some (2, 2)
  | optPlus | optMinus | optMult | optLt | optLe | optGt | optGe | optEq => some (2, 1)
  | leave | throw => some (1, 0)
  | branchIf | branchUnless | branchNil | caseDispatch => some (1, 0)
  | send | newArray => none

def control : Opcode → Option Control
  | jump => some .jump
  | branchIf => some (.branch .ifTrue)
  | branchUnless => some (.branch .unlessTrue)
  | branchNil => some (.branch .ifNil)
  | caseDispatch => some .dispatch
  | leave => some (.exit .leave)
  | throw => some (.exit .throw)
  | _ => none

theorem ofWord?_word (op : Opcode) : ofWord? op.word = some op := by
  cases op <;> rfl

theorem word_of_ofWord? {w : Word} {op : Opcode} (h : ofWord? w = some op) : op.word = w := by
  obtain ⟨hlt, rfl⟩ := List.getElem?_eq_some_iff.1 h
  have idx : ∀ i, (hi : i < all.length) → all.idxOf all[i] = i := by decide
  rw [word, idx _ hlt]
  simp

end Opcode

end StackFlow
