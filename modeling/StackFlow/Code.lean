import StackFlow.Instr

/-!
Code as a list of words: the instructions that it holds, and what is wrong with it.
-/
namespace StackFlow

/-- Why a list of words is not the code of a method. -/
inductive CodeError
  | invalidOpcode (word : Word) (position : Nat)
  | truncated (position : Nat)
  | invalidDispatchSize (count : Word) (position : Nat)
  | invalidJumpTarget (target : Int) (position : Nat)
  | invalidLocalRef (index : Word) (locals : Nat) (position : Nat)
  | duplicateCaseKey (key : Value) (position : Nat)
  | tooManyParams (params locals : Nat)
  | empty
  deriving DecidableEq, Repr

def CodeError.message : CodeError → String
  | invalidOpcode w p => s!"invalid opcode word {Numeral.hex w} at position {p}"
  | truncated p => s!"instruction at position {p} runs past the end of the stream"
  | invalidDispatchSize n p => s!"dispatch table at position {p} declares {n} entries"
  | invalidJumpTarget t p => s!"jump target {t} at position {p} is not an instruction boundary"
  | invalidLocalRef i n p =>
    s!"invalid local variable reference: index {i} (max {n}) at position {p}"
  | duplicateCaseKey k p => s!"duplicate dispatch key {k.text} at position {p}"
  | tooManyParams n m => s!"parameter count {n} exceeds local count {m}"
  | empty => "empty instruction sequence"

namespace Code

/-- Operand kinds of a dispatch table with `n` cases: the number of cases, a key and an offset for
each, and the offset for all other keys. -/
def tableKinds (n : Nat) : List OperandKind :=
  .literal :: (List.replicate n [.value, .offset]).flatten ++ [.offset]

/-- Kinds of the operands that `rest` has to begin with after the word of `op`. The number of cases
is compared with half of what is left, so that a huge one cannot overflow. -/
def operandKinds (op : Opcode) (position : Nat) (rest : List Word) :
    Except CodeError (List OperandKind) :=
  match op.layout with
  | some kinds => .ok kinds
  | none =>
    match rest with
    | [] => .error (.truncated position)
    | count :: after =>
      if after.length / 2 < count.toNat then .error (.invalidDispatchSize count position)
      else .ok (tableKinds count.toNat)

def readOperands : List OperandKind → List Word → Option (List Operand)
  | [], _ => some []
  | _ :: _, [] => none
  | k :: ks, w :: ws => (readOperands ks ws).map (Operand.ofWord k w :: ·)

/-- The instruction at the front of `code`. -/
def decode (position : Nat) (code : List Word) : Except CodeError Instr :=
  match code with
  | [] => .error (.truncated position)
  | w :: rest =>
    match Opcode.ofWord? w with
    | none => .error (.invalidOpcode w position)
    | some op =>
      match operandKinds op position rest with
      | .error e => .error e
      | .ok kinds =>
        match readOperands kinds rest with
        | none => .error (.truncated position)
        | some operands => .ok ⟨position, op, operands⟩

def decodeAt (code : List Word) (position : Nat) : Except CodeError Instr :=
  decode position (code.drop position)

/-- The instructions of `code`, which starts at `position`. -/
def decodeFrom (position : Nat) (code : List Word) : Except CodeError (List Instr) :=
  match code with
  | [] => .ok []
  | w :: rest =>
    match decode position (w :: rest) with
    | .error e => .error e
    | .ok i => (decodeFrom (position + i.size) (rest.drop i.operands.length)).map (i :: ·)
termination_by code.length
decreasing_by simp only [List.length_cons, List.length_drop]; omega

def decodeAll (code : List Word) : Except CodeError (List Instr) := decodeFrom 0 code

/-- The first key that comes a second time, where `seen` came before. -/
def repeatedKey? (seen : List Value) : List Value → Option Value
  | [] => none
  | k :: ks => if k ∈ seen then some k else repeatedKey? (k :: seen) ks

/-- A jump that does not lead to an instruction. A target that does not fit a signed word is reported
as the largest one that does. -/
def badTarget? (instrs : List Instr) (length : Nat) (i : Instr) : Option CodeError :=
  let lands (t : Int) : Bool :=
    0 ≤ t && t < length && instrs.any fun j => (j.position : Int) == t
  (i.targets.find? fun t => !lands t).map fun t => .invalidJumpTarget (min t maxTarget) i.position

/-- A read or write of a local that the frame does not have. -/
def badLocal? (locals : Nat) (i : Instr) : Option CodeError :=
  if (i.opcode = .getLocal ∨ i.opcode = .setLocal) ∧ locals ≤ (i.word 0).toNat then
    some (.invalidLocalRef (i.word 0) locals i.position)
  else none

/-- A dispatch table with two cases for one key. -/
def badKey? (i : Instr) : Option CodeError :=
  i.dispatchTable?.bind fun table =>
    (repeatedKey? [] (table.1.map Prod.fst)).map fun k => .duplicateCaseKey k i.position

/-- The instructions of a method's code, all of whose jumps, locals and dispatch keys are in order. -/
def verify (code : List Word) (params locals : Nat) : Except CodeError (List Instr) :=
  if code.isEmpty then .error .empty
  else if locals < params then .error (.tooManyParams params locals)
  else
    match decodeAll code with
    | .error e => .error e
    | .ok instrs =>
      match (instrs.findSome? (badTarget? instrs code.length)
          <|> instrs.findSome? (badLocal? locals)
          <|> instrs.findSome? badKey?) with
      | some e => .error e
      | none => .ok instrs

end Code

end StackFlow
