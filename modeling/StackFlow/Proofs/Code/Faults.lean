import StackFlow.Compile.Error
import StackFlow.Proofs.Code.Destinations

/-!
What is wrong with a method that cannot be compiled, said of its code alone: a path of control comes
to an instruction that cannot be executed at the depth that the path brings, or two paths bring a
value and no value to one position.
-/
namespace StackFlow

namespace Instr

/-- Name and number of arguments of the host function that the instruction calls. -/
def calls? (i : Instr) : Option (String × Nat) :=
  match i.opcode with
  | .throw => some (ExternTable.throwName, 2)
  | _ => i.sends?.map fun (_, count) => (ExternTable.funcallName count, count + 2)

/-- The word from which control leaves: the first one of a transfer, otherwise the last one. -/
def leavesAt (i : Instr) : Nat := if i.transfers then i.position else i.next - 1

/-- The instruction cannot be compiled at this depth of a stack of at most `max` values. -/
inductive Faults (x : ExternTable) (max : Nat) (i : Instr) (depth : Nat) : CompileError → Prop
  /-- It needs more values than there are. -/
  | underflow {next : Int64} (needs : depth < i.effect.1) : Faults x max i depth (.stackUnderflow next)
  /-- It finds its operands, but its results go beyond the bound. -/
  | overflow (takes : i.effect.1 ≤ depth) (above : max < depth - i.effect.1 + i.effect.2) :
      Faults x max i depth (.stackOverflow max (max + 1))
  | unresolved {name : String} {arity : Nat} (calls : i.calls? = some (name, arity))
      (absent : x.resolve? name arity = none) : Faults x max i depth (.unresolvedExternal name)
  | unsupported (op : i.opcode = .putString ∨ i.opcode = .newArray) :
      Faults x max i depth (.unsupportedInstruction i.opcode i.position)
  | exit {kind : ExitKind} (op : i.opcode.control = some (.exit kind)) (other : depth ≠ 1) :
      Faults x max i depth (.unexpectedStackDepth depth i.opcode i.position)

theorem calls?_of_sends {i : Instr} {selector : Word} {count : Nat}
    (h : i.sends? = some (selector, count)) :
    i.calls? = some (ExternTable.funcallName count, count + 2) := by
  unfold calls?
  split
  next op =>
    unfold sends? at h
    rw [op] at h
    cases h
  next => rw [h]; rfl

end Instr

namespace Method

/-- Control goes from one position to another over an instruction that fits the depth. -/
structure Moves (m : Method) (i : Instr) (p : Nat) (d : Int) (q : Nat) (d' : Int) : Prop where
  found : m.instrAt? p = some i
  fits : m.Fits i d
  depth : d' = d - i.effect.1 + i.effect.2
  leads : q ∈ i.successors

/-- A path from position 0 comes to the position with the depth, over instructions that fit. -/
inductive Arrives (m : Method) : Nat → Int → Prop
  | start : m.Arrives 0 0
  | step {i : Instr} {p q : Nat} {d d' : Int} (before : m.Arrives p d) (move : m.Moves i p d q d') :
      m.Arrives q d'

/-- Such a path whose last step leaves from the word `source`. -/
def ArrivesFrom (m : Method) (source q : Nat) (d' : Int) : Prop :=
  ∃ i p d, m.Arrives p d ∧ m.Moves i p d q d' ∧ i.leavesAt = source

/-- The code shows the error: a path comes to an instruction with the fault, or one path brings a
value to a position and another none, of which one ends in the forward edge that the error names. -/
inductive Exhibits (m : Method) (x : ExternTable) : CompileError → Prop
  | fault {p d : Nat} {i : Instr} {e : CompileError} (path : m.Arrives p d)
      (found : m.instrAt? p = some i) (faults : i.Faults x m.stackMax d e) : Exhibits m x e
  | merge {position source : Nat} {d d' : Int} (forward : source < position)
      (edge : m.ArrivesFrom source position d) (path : m.Arrives position d')
      (differ : d = 0 ∧ 0 < d' ∨ 0 < d ∧ d' = 0) :
      Exhibits m x (.inconsistentMerge position source)

/-- A path comes to an instruction with the fault. -/
def MeetsFault (m : Method) (x : ExternTable) (e : CompileError) : Prop :=
  ∃ (p d : Nat) (i : Instr), m.Arrives p d ∧ m.instrAt? p = some i ∧ i.Faults x m.stackMax d e

variable {m : Method}

theorem MeetsFault.exhibits {x : ExternTable} {e : CompileError} (h : m.MeetsFault x e) :
    m.Exhibits x e := by
  obtain ⟨p, d, i, path, found, faults⟩ := h
  exact .fault path found faults

theorem ArrivesFrom.arrives {source q : Nat} {d : Int} (h : m.ArrivesFrom source q d) :
    m.Arrives q d := by
  obtain ⟨i, p, d₀, before, move, -⟩ := h
  exact .step before move

theorem Arrives.reaches {p : Nat} {d : Int} (h : m.Arrives p d) : m.Reaches p d := by
  induction h with
  | start => exact .start
  | step _ move ih =>
    rw [move.depth]
    exact ih.step move.found move.leads

end Method

end StackFlow
