import StackFlow.Compile.BlockTable
import StackFlow.Compile.Lowering
import StackFlow.Event
import StackFlow.Listing

/-!
Compilation of a method: a walk over its basic blocks along the edges of control flow, which carries
the operand stack. A value on top of the stack goes with a forward edge into the phi of the block that
it leads to. A block that is first entered by a backward edge with values on the stack begins with a phi
as well, in place of the top one; that edge is not among the sources of the phi, and the values below
are taken as they are.
The edges to follow form a list with the newest first, so the walk is depth-first. It ends because an
edge either enters a block for the first time or adds no edges: `visit` counts the blocks not entered
yet and then the edges.
-/
namespace StackFlow

open IR (Reg BlockId Builder Func Terminator)

/-- An edge of control flow that is still to be followed. -/
structure Edge where
  /-- Position of the instruction that transfers control, or the last word of a block without one. -/
  source : Nat
  pred : BlockId
  dest : Nat
  /-- The stack at the end of `pred`. -/
  stack : OperandStack
  deriving DecidableEq, Repr

/-- Register code under construction. -/
structure Draft where
  builder : Builder
  /-- The block for a branch that is not taken at the end of the code, once there is one. -/
  trap : Option BlockId := none

structure Walk extends Draft where
  table : BlockTable

/-- What stays the same during a compilation. -/
structure Compiler where
  method : Method
  lowering : Lowering
  /-- Report the listing of a method that has an unsupported instruction. -/
  listUnsupported : Bool := true

namespace Draft

def terminate (d : Draft) (t : Terminator) : Draft := { d with builder := d.builder.terminate t }

/-- The block that only traps; there is one in a function. -/
def trapBlock (d : Draft) : BlockId × Draft :=
  match d.trap with
  | some trap => (trap, d)
  | none =>
    let (trap, b) := d.builder.newBlock
    let b := ((b.switchTo trap).terminate .unreachable).switchTo d.builder.current
    (trap, { builder := b, trap := some trap })

def emit {α : Type} (d : Draft) (x : Emit α) : Except CompileError (α × Draft) :=
  (x.run d.builder).map fun (a, b) => (a, { d with builder := b })

end Draft

namespace BlockTable

def handle (t : BlockTable) (start source : Nat) : Except CompileError BlockId :=
  match t.block? start with
  | some b => .ok b.handle
  | none => .error (.code (.invalidJumpTarget start source))

end BlockTable

/-- Where a jump or a branch leads. -/
def Instr.destination (i : Instr) : Except CompileError Nat :=
  match i.jumpTarget? with
  | some dest => .ok dest
  | none => .error (.code (.invalidJumpTarget (i.targets.headD Code.maxTarget) i.position))

namespace Compiler

/-- Reports an instruction that the lowering does not know. -/
def warn (c : Compiler) (table : BlockTable) : CompileError → List Event
  | .unsupportedInstruction op position =>
    if c.listUnsupported then
      [.unsupported op position c.method.listing table.starts table.text]
    else []
  | _ => []

def lower (c : Compiler) (table : BlockTable) (i : Instr) (s : OperandStack) (b : Builder) :
    Traced CompileError (OperandStack × Builder) :=
  match (c.lowering.straight i s).run b with
  | .ok r => pure r
  | .error e => { events := c.warn table e, result := .error e }

def lowerAll (c : Compiler) (table : BlockTable) :
    List Instr → OperandStack → Builder → Traced CompileError (OperandStack × Builder)
  | [], s, b => pure (s, b)
  | i :: is, s, b => do
    Traced.report (.instr i.position i.opcode s.depth)
    let (s, b) ← c.lower table i s b
    c.lowerAll table is s b

/-- Ends the current block with a jump. -/
def jumpTo (table : BlockTable) (source dest : Nat) (s : OperandStack) (d : Draft) :
    Except CompileError (Draft × List Edge) := do
  let handle ← table.handle dest source
  return (d.terminate (.jump handle), [⟨source, d.builder.current, dest, s⟩])

/-- The block after a branch; past the end of the code that is the trap. -/
def nextBlock (c : Compiler) (table : BlockTable) (i : Instr) (d : Draft) :
    Except CompileError (BlockId × Draft) :=
  if i.next < c.method.length then (table.handle i.next i.position).map (·, d)
  else .ok d.trapBlock

def edges (i : Instr) (pred : BlockId) (s : OperandStack) (dests : List Nat) : List Edge :=
  dests.map (⟨i.position, pred, ·, s⟩)

/-- Ends the current block with the instruction that transfers control. The edges are followed in the
order of the list: what follows a branch before where it leads, the default of a dispatch before its
cases. -/
def transfer (c : Compiler) (table : BlockTable) (i : Instr) (s : OperandStack) (d : Draft) :
    Control → Except CompileError (Draft × List Edge)
  | .jump => do
    let dest ← i.destination
    jumpTo table i.position dest s d
  | .branch kind => do
    let (v, s) ← s.pop
    let (cond, d) ← d.emit (c.lowering.condition kind v)
    let dest ← i.destination
    let pred := d.builder.current
    let thenTo ← table.handle dest i.position
    let (elseTo, d) ← c.nextBlock table i d
    return (d.terminate (.branch cond thenTo elseTo), edges i pred s [i.next, dest])
  | .dispatch => do
    let (key, s) ← s.pop
    match i.dispatchTable? with
    | none => throw (.code (.truncated i.position))
    | some (cases, other) =>
      let targets ← cases.mapM fun (k, dest) =>
        (table.handle dest i.position).map fun handle => (k.bits, handle)
      let otherTo ← table.handle other i.position
      return (d.terminate (.switch key targets otherTo),
        edges i d.builder.current s (other :: cases.map Prod.snd))
  | .exit kind => do
    if s.depth ≠ 1 then throw (.unexpectedStackDepth s.depth i.opcode i.position)
    let (v, _) ← s.pop
    let (r, d) ← d.emit (c.lowering.result kind i v)
    return (d.terminate (.ret r), [])

/-- Ends the current block, with its first transfer or else by going on to the next block. -/
def finish (c : Compiler) (table : BlockTable) (block : BasicBlock) (exit? : Option (Instr × Control))
    (s : OperandStack) (d : Draft) : Traced CompileError (Draft × List Edge) :=
  match exit? with
  | some (i, control) => do
    Traced.report (.instr i.position i.opcode s.depth)
    c.transfer table i s d control
  | none =>
    match table.following? block.start with
    | some next => jumpTo table block.last next s d
    | none => pure (d.terminate .unreachable, [])

/-- A block with a value on its incoming stack begins with a phi in place of that value: of the
values that wait, or with no source yet where a backward edge was the first to enter. -/
def join (block : BasicBlock) (s : OperandStack) (b : Builder) :
    Except CompileError (Option Reg × OperandStack × Builder) :=
  if block.pending.isEmpty && s.isEmpty then .ok (none, s, b)
  else
    let s := if block.pending.isEmpty then s.dropTop else s
    let (phi, b) := b.phi block.pending
    (s.push phi).map (some phi, ·, b)

/-- Compiles the block at `start`, if that is still to be done. -/
def enter (c : Compiler) (start : Nat) (s : OperandStack) (w : Walk) :
    Traced CompileError (Walk × List Edge) :=
  match w.table.block? start with
  | none => pure (w, [])
  | some block =>
    if block.compiled then pure (w, [])
    else do
      Traced.report (.enterBlock start block.last block.handle s.depth block.pending.length)
      let (merge, s', b) ← join block s (w.builder.switchTo block.handle)
      let table := w.table.modify start fun k =>
        { k with compiled := true, pending := [], merge,
                 carries := k.carries.or (some merge.isSome) }
      let body := c.method.instrsIn start block.last
      let (s', b) ← c.lowerAll table (body.takeWhile (!·.transfers)) s' b
      let exit? := body.findSome? fun i => i.opcode.control.map (i, ·)
      let (d, edges) ← c.finish table block exit? s' { w.toDraft with builder := b }
      return ({ toDraft := d, table }, edges)

end Compiler

namespace Walk

/-- Adds a value to those that a block takes: to its phi, or to those that wait for one. A block that
was entered without a value has no place for it. -/
def deliver (w : Walk) (block : BasicBlock) (e : Edge) (v : Reg) : Except CompileError Walk :=
  match block.merge with
  | some phi =>
    match w.builder.addPhiSource? block.handle phi (e.pred, v) with
    | some builder => .ok { w with builder }
    | none => .error (.inconsistentMerge e.dest e.source)
  | none =>
    if block.compiled then .error (.inconsistentMerge e.dest e.source)
    else .ok { w with table := w.table.modify e.dest fun k =>
      { k with pending := k.pending ++ [(e.pred, v)] } }

/-- Brings the value on top of the stack along a forward edge to the block that it leads to. Either
all forward edges into a block bring a value or none does. The stack is left without the value. -/
def arrive (w : Walk) (e : Edge) : Traced CompileError (OperandStack × Walk) :=
  if e.dest ≤ e.source then do
    Traced.report (.backwardEdge e.source e.dest)
    return (e.stack, w)
  else
    match w.table.block? e.dest with
    | none => pure (e.stack.dropTop, w)
    | some block =>
      let carries := e.stack.top?.isSome
      if block.carries.getD carries ≠ carries then
        Traced.throw (.inconsistentMerge e.dest e.source)
      else
        let w := { w with table := w.table.modify e.dest fun k => { k with carries } }
        match e.stack.top? with
        | none => pure (e.stack, w)
        | some v => do
          let w ← w.deliver block e v
          Traced.report (.incoming e.source e.dest v e.pred)
          return (e.stack.dropTop, w)

end Walk

namespace Compiler

def follow (c : Compiler) (e : Edge) (w : Walk) : Traced CompileError (Walk × List Edge) := do
  let (s, w) ← w.arrive e
  c.enter e.dest s w

end Compiler

end StackFlow
