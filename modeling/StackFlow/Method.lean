import StackFlow.Code

/-!
Methods: verified code with the shape of its frame.
-/
namespace StackFlow

structure Method where
  name : String
  code : List Word
  /-- Declared bound of the operand stack. -/
  stackMax : Nat
  params : Nat
  /-- Number of locals, the parameters included. -/
  locals : Nat
  instrs : List Instr
  verified : Code.verify code params locals = .ok instrs

namespace Method

def ofCode (name : String) (code : List Word) (stackMax params locals : Nat) :
    Except CodeError Method :=
  match h : Code.verify code params locals with
  | .error e => .error e
  | .ok instrs => .ok ⟨name, code, stackMax, params, locals, instrs, h⟩

/-- Length of the code in words. -/
def length (m : Method) : Nat := m.code.length

def instrAt? (m : Method) (position : Nat) : Option Instr :=
  m.instrs.find? (·.position == position)

/-- The instructions whose first words lie between `first` and `last`, these included. -/
def instrsIn (m : Method) (first last : Nat) : List Instr :=
  (m.instrs.dropWhile (·.position < first)).takeWhile (·.position ≤ last)

/-- A basic block starts at position 0, wherever a jump leads, and after every transfer. -/
def startsBlock (m : Method) (position : Nat) : Bool :=
  position == 0 || m.instrs.any fun i =>
    i.targets.contains (position : Int) || (i.transfers && i.next == position)

/-- Starts of the basic blocks, ascending. -/
def blockStarts (m : Method) : List Nat := (List.range m.length).filter m.startsBlock

theorem ofCode_eq_ok_iff {name : String} {code : List Word} {stackMax params locals : Nat}
    {m : Method} :
    ofCode name code stackMax params locals = .ok m ↔
      m.name = name ∧ m.code = code ∧ m.stackMax = stackMax ∧ m.params = params ∧
        m.locals = locals := by
  constructor
  · intro h
    unfold ofCode at h
    split at h
    · cases h
    · cases h; exact ⟨rfl, rfl, rfl, rfl, rfl⟩
  · rintro ⟨rfl, rfl, rfl, rfl, rfl⟩
    unfold ofCode
    split
    next e he => rw [m.verified] at he; cases he
    next instrs hi =>
      have : instrs = m.instrs := by rw [m.verified] at hi; cases hi; rfl
      subst this
      rfl

end Method

end StackFlow
