import StackFlow.Method

/-!
Listings: instructions as text, with absolute targets in place of offsets.
-/
namespace StackFlow

namespace Instr

def operandText (i : Instr) : Operand → String
  | .literal w => toString w.toNat
  | .value v => v.text
  | .offset w => (i.resolve? w).elim "?" toString

/-- Position, mnemonic and operands, with one blank between two of them. -/
def text (i : Instr) : String :=
  " ".intercalate (Numeral.dec4 i.position :: i.opcode.mnemonic :: i.operands.map i.operandText)

end Instr

def Method.listing (m : Method) : String :=
  s!"== disasm: {m.name} (stack_max={m.stackMax}, params={m.params}, locals={m.locals})\n"
    ++ String.join (m.instrs.map fun i => i.text ++ "\n")

end StackFlow
