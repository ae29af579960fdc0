import StackFlow.Extern
import StackFlow.IR.Func

/-!
A function under construction: statements go to the end of the current block, and each takes a new
register for its result.
-/
namespace StackFlow.IR

/-- `p` is noted once. -/
def Block.addPred (b : Block) (p : BlockId) : Block :=
  if p ∈ b.preds then b else { b with preds := b.preds ++ [p] }

/-- Gives the phi that defines `r` one more source. -/
def Stmt.addSource (r : Reg) (source : BlockId × Reg) : List Stmt → List Stmt
  | [] => []
  | .phi d sources :: rest =>
    if d = r then .phi d (sources ++ [source]) :: rest
    else .phi d sources :: Stmt.addSource r source rest
  | s :: rest => s :: Stmt.addSource r source rest

structure Builder where
  func : Func
  current : BlockId
  externs : ExternTable

namespace Builder

def start (name : String) (params locals : Nat) (externs : ExternTable) : Builder :=
  ⟨{ name, params, locals }, Func.entry, externs⟩

def newBlock (b : Builder) : BlockId × Builder :=
  (⟨b.func.blocks.length⟩, { b with func := { b.func with blocks := b.func.blocks ++ [{}] } })

def switchTo (b : Builder) (id : BlockId) : Builder := { b with current := id }

def newReg (b : Builder) (type : RegType) : Reg × Builder :=
  let r : Reg := ⟨b.func.nextReg⟩
  let bools := match type with
    | .bool => b.func.bools ++ [r]
    | .value => b.func.bools
  (r, { b with func := { b.func with nextReg := b.func.nextReg + 1, bools } })

def write (b : Builder) (s : Stmt) : Builder :=
  { b with func := b.func.modifyBlock b.current fun k => { k with stmts := k.stmts ++ [s] } }

def define (b : Builder) (type : RegType) (stmt : Reg → Stmt) : Reg × Builder :=
  let (r, b) := b.newReg type
  (r, b.write (stmt r))

def const (b : Builder) (w : Word) : Reg × Builder := b.define .value (.const · w)

def value (b : Builder) (v : Value) : Reg × Builder := b.const v.bits

def receiver (b : Builder) : Reg × Builder := b.define .value .receiver

def arg (b : Builder) (i : Nat) : Reg × Builder := b.define .value (.arg · i)

def loadLocal (b : Builder) (i : Nat) : Reg × Builder := b.define .value (.loadLocal · i)

def storeLocal (b : Builder) (i : Nat) (v : Reg) : Builder := b.write (.storeLocal i v)

def and (b : Builder) (l r : Reg) : Reg × Builder := b.define .value (.and · l r)

def eq (b : Builder) (l r : Reg) : Reg × Builder := b.define .bool (.eq · l r)

def ne (b : Builder) (l r : Reg) : Reg × Builder := b.define .bool (.ne · l r)

def phi (b : Builder) (sources : List (BlockId × Reg)) : Reg × Builder :=
  b.define .value (.phi · sources)

/-- A call of a host function that takes as many arguments. -/
def call? (b : Builder) (callee : String) (args : List Reg) : Option (Reg × Builder) :=
  (b.externs.resolve? callee args.length).map fun _ => b.define .value (.call · callee args)

/-- `none` if the block has no phi that defines `phi`. -/
def addPhiSource? (b : Builder) (block : BlockId) (phi : Reg) (source : BlockId × Reg) :
    Option Builder :=
  (b.func.phiSources? block phi).map fun _ =>
    { b with func := b.func.modifyBlock block fun k =>
      { k with stmts := Stmt.addSource phi source k.stmts } }

/-- Ends the current block and notes it as a predecessor of its successors. -/
def terminate (b : Builder) (t : Terminator) : Builder :=
  let noted := t.successors.foldl (fun f s => f.modifyBlock s (·.addPred b.current)) b.func
  { b with func := noted.modifyBlock b.current fun k => { k with terminator := t } }

end Builder

end StackFlow.IR
