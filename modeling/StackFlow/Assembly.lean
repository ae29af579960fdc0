import StackFlow.Method

/-!
Assembly: code under construction, whose jumps name labels. A label stands for the position where it
was last marked; the offsets to labels are put into the finished code.
-/
namespace StackFlow

abbrev Label := Nat

inductive AssemblyError
  | unmarkedLabel (label : Label)
  | duplicateLabel (label : Label)
  | code (error : CodeError)
  deriving DecidableEq, Repr

def AssemblyError.message : AssemblyError → String
  | unmarkedLabel l => s!"label {l} is used but never marked"
  | duplicateLabel l => s!"label {l} is marked twice"
  | code e => e.message

/-- An offset that waits for its label. -/
structure Unresolved where
  /-- Position of the word that takes the offset. -/
  slot : Nat
  /-- Position that the offset is counted from. -/
  base : Nat
  label : Label
  deriving DecidableEq, Repr

/-- A line of assembly. -/
inductive Directive
  | emit (op : Opcode) (operands : List Word)
  | putObject (v : Value)
  | newArray (count : Word)
  | send (selector count : Word)
  /-- `op` is `jump` or a branch. -/
  | jump (op : Opcode) (label : Label)
  | dispatch (cases : List (Value × Label)) (other : Label)
  | mark (label : Label)
  deriving Repr

structure Assembly where
  /-- The words so far, with 0 in the place of each offset to a label. -/
  code : List Word := []
  /-- Offsets that wait for their labels, in the order of the code. -/
  unresolved : List Unresolved := []
  /-- Marks, the last one first. -/
  marks : List (Label × Nat) := []
  /-- Depth of the operand stack along the text, and the greatest so far. -/
  depth : Nat := 0
  maxDepth : Nat := 0
  deriving Repr

namespace Assembly

/-- Position of the next word. -/
def position (a : Assembly) : Nat := a.code.length

/-- A stack that holds too few values counts as empty. -/
def track (a : Assembly) (pops pushes : Nat) : Assembly :=
  let depth := a.depth - pops + pushes
  { a with depth, maxDepth := max a.maxDepth depth }

def trackOpcode (a : Assembly) (op : Opcode) : Assembly :=
  match op.effect with
  | some (pops, pushes) => a.track pops pushes
  | none => a

def write (a : Assembly) (words : List Word) : Assembly := { a with code := a.code ++ words }

/-- Has an offset put into the word at `slot` once the position of the label is known. -/
def await (a : Assembly) (slot base : Nat) (label : Label) : Assembly :=
  { a with unresolved := a.unresolved ++ [⟨slot, base, label⟩] }

def emit (a : Assembly) (op : Opcode) (operands : List Word) : Assembly :=
  (a.trackOpcode op).write (op.word :: operands)

/-- The integers 0 and 1 have opcodes of their own. -/
def putObject (a : Assembly) (v : Value) : Assembly :=
  if v = Value.fixnum 0 then a.emit .putZero []
  else if v = Value.fixnum 1 then a.emit .putOne []
  else a.emit .putObject [v.bits]

def jump (a : Assembly) (op : Opcode) (label : Label) : Assembly :=
  let emitted := a.emit op [0]
  emitted.await (a.position + 1) emitted.position label

/-- Writes the cases of a dispatch table and notes the places of their offsets. -/
def writeCases (a : Assembly) (slots : List (Nat × Label)) :
    List (Value × Label) → Assembly × List (Nat × Label)
  | [] => (a, slots)
  | (key, label) :: cases =>
    (a.write [key.bits, 0]).writeCases (slots ++ [(a.position + 1, label)]) cases

def dispatch (a : Assembly) (cases : List (Value × Label)) (other : Label) : Assembly :=
  let start := a.position
  let (a, slots) := ((a.track 1 0).write
    [Opcode.caseDispatch.word, UInt64.ofNat cases.length]).writeCases [] cases
  let slots := slots ++ [(a.position, other)]
  let base := start + 2 + cases.length * 2 + 1
  slots.foldl (fun a (slot, label) => a.await slot base label) (a.write [0])

def marked (a : Assembly) (label : Label) : Bool := (a.marks.lookup label).isSome

/-- A label that is marked again moves to the new position. -/
def mark (a : Assembly) (label : Label) : Assembly :=
  { a with marks := (label, a.position) :: a.marks }

def add (a : Assembly) : Directive → Assembly
  | .emit op operands => a.emit op operands
  | .putObject v => a.putObject v
  | .newArray count => (a.track count.toNat 1).emit .newArray [count]
  | .send selector count => (a.track (count + 1).toNat 1).emit .send [selector, count]
  | .jump op label => a.jump op label
  | .dispatch cases other => a.dispatch cases other
  | .mark label => a.mark label

/-- What is wrong with a line; the line counts all the same. -/
def complaint? (a : Assembly) : Directive → Option AssemblyError
  | .mark label => if a.marked label then some (.duplicateLabel label) else none
  | _ => none

def ofDirectives (ds : List Directive) : Assembly := ds.foldl add {}

/-- The distance between two positions as a code word. -/
def offset (position base : Nat) : Word := (Int64.ofNat position - Int64.ofNat base).toUInt64

/-- Puts the offset to a label into the code. -/
def patch (a : Assembly) (code : List Word) (u : Unresolved) : Except AssemblyError (List Word) :=
  match a.marks.lookup u.label with
  | some position => .ok (code.set u.slot (offset position u.base))
  | none => .error (.unmarkedLabel u.label)

/-- Finished code, or the first of its labels that is not marked. -/
def words (a : Assembly) : Except AssemblyError (List Word) := a.unresolved.foldlM a.patch a.code

/-- The assembled method. Without a declared bound the greatest depth along the text is taken. -/
def build (a : Assembly) (name : String) (params locals : Nat) (stackMax? : Option Nat) :
    Except AssemblyError Method :=
  match a.words with
  | .error e => .error e
  | .ok code =>
    match Method.ofCode name code (stackMax?.getD a.maxDepth) params locals with
    | .error e => .error (.code e)
    | .ok m => .ok m

end Assembly

end StackFlow
