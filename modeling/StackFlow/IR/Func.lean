import StackFlow.Numeral

/-!
Register code in basic blocks. A value that several blocks bring to one place is joined by a phi.

Registers, blocks, parameters and locals are numbered from 0, and the numbers have no bound. For code
that keeps them in 32 bits this stands as long as a function has at most `2 ^ 32` registers, blocks and
locals, and at most `2 ^ 28` parameters: the distance of an argument from the first, in bytes, is then
a signed number of 32 bits.
-/
namespace StackFlow.IR

structure Reg where
  index : Nat
  deriving DecidableEq, Repr

structure BlockId where
  index : Nat
  deriving DecidableEq, Repr

def Reg.text (r : Reg) : String := s!"r{r.index}"

def BlockId.text (b : BlockId) : String := s!"bb{b.index}"

inductive RegType
  | value
  | bool
  deriving DecidableEq, Repr

def RegType.text : RegType → String
  | value => "val"
  | bool => "bool"

inductive Stmt
  | const (dest : Reg) (bits : Word)
  | receiver (dest : Reg)
  | arg (dest : Reg) (index : Nat)
  | loadLocal (dest : Reg) (index : Nat)
  | storeLocal (index : Nat) (value : Reg)
  | and (dest left right : Reg)
  | eq (dest left right : Reg)
  | ne (dest left right : Reg)
  | call (dest : Reg) (callee : String) (args : List Reg)
  /-- One source for each incoming edge. -/
  | phi (dest : Reg) (sources : List (BlockId × Reg))
  deriving DecidableEq, Repr

namespace Stmt

def dest? : Stmt → Option Reg
  | const d _ | receiver d | arg d _ | loadLocal d _ => some d
  | storeLocal _ _ => none
  | and d _ _ | eq d _ _ | ne d _ _ | call d _ _ | phi d _ => some d

/-- Registers that the statement reads. -/
def uses : Stmt → List Reg
  | const _ _ | receiver _ | arg _ _ | loadLocal _ _ => []
  | storeLocal _ v => [v]
  | and _ l r | eq _ l r | ne _ l r => [l, r]
  | call _ _ args => args
  | phi _ sources => sources.map Prod.snd

def isPhi : Stmt → Bool
  | phi _ _ => true
  | _ => false

/-- Sources of the statement if it is the phi that defines `r`. -/
def sourcesOf? (r : Reg) : Stmt → Option (List (BlockId × Reg))
  | phi d sources => if d = r then some sources else none
  | _ => none

end Stmt

inductive Terminator
  | jump (target : BlockId)
  | branch (cond : Reg) (thenTo elseTo : BlockId)
  /-- Compares all bits of the register with the keys. -/
  | switch (value : Reg) (cases : List (Word × BlockId)) (other : BlockId)
  | ret (value : Reg)
  /-- Control never comes to the end of the block. -/
  | unreachable
  /-- Not yet decided. -/
  | missing
  deriving DecidableEq, Repr

/-- Successors in edge order; a block may be among them several times. -/
def Terminator.successors : Terminator → List BlockId
  | jump t => [t]
  | branch _ t e => [t, e]
  | switch _ cases other => other :: cases.map Prod.snd
  | ret _ | unreachable | missing => []

structure Block where
  stmts : List Stmt := []
  terminator : Terminator := .missing
  /-- Blocks that hand control to this one, each once, in the order in which they were ended. -/
  preds : List BlockId := []
  deriving DecidableEq, Repr

structure Func where
  name : String
  params : Nat
  /-- Number of locals, the parameters included. -/
  locals : Nat
  /-- Blocks by index; control enters at the first. -/
  blocks : List Block := [{}]
  nextReg : Nat := 0
  /-- Registers that hold the outcome of a comparison; all others hold values. -/
  bools : List Reg := []
  deriving DecidableEq, Repr

namespace Func

/-- Where control enters. This could be a field of the function; but building one begins with the
entry, so it is the first block of all that are built. -/
def entry : BlockId := ⟨0⟩

def block (f : Func) (b : BlockId) : Block := f.blocks.getD b.index {}

def regType (f : Func) (r : Reg) : RegType := if r ∈ f.bools then .bool else .value

def stmts (f : Func) : List Stmt := f.blocks.flatMap Block.stmts

def phiCount (f : Func) : Nat := f.stmts.countP Stmt.isPhi

/-- Sources of the phi that defines `r` in block `b`. -/
def phiSources? (f : Func) (b : BlockId) (r : Reg) : Option (List (BlockId × Reg)) :=
  (f.block b).stmts.findSome? (Stmt.sourcesOf? r)

def modifyBlock (f : Func) (b : BlockId) (g : Block → Block) : Func :=
  { f with blocks := f.blocks.modify b.index g }

def successors (f : Func) (b : BlockId) : List BlockId := (f.block b).terminator.successors

@[simp] theorem length_modifyBlock (f : Func) (b : BlockId) (g : Block → Block) :
    (f.modifyBlock b g).blocks.length = f.blocks.length := by
  simp [modifyBlock]

theorem block_modifyBlock_self (f : Func) {b : BlockId} (g : Block → Block)
    (inside : b.index < f.blocks.length) : (f.modifyBlock b g).block b = g (f.block b) := by
  simp [block, modifyBlock, List.getD_eq_getElem?_getD, inside]

theorem block_modifyBlock_of_ne (f : Func) {b c : BlockId} (g : Block → Block) (h : b ≠ c) :
    (f.modifyBlock b g).block c = f.block c := by
  have : b.index ≠ c.index := fun hi => h (by cases b; cases c; simp_all)
  simp [block, modifyBlock, List.getD_eq_getElem?_getD, this]

end Func

end StackFlow.IR
