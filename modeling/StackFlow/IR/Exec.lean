import StackFlow.IR.Func
import StackFlow.IR.Store

/-!
Execution of register code. Registers and locals are variables, 0 at first. At the end of a block,
whatever its successor, each phi that names the block as a source takes its value from there: all
sources are read before a phi changes.
-/
namespace StackFlow.IR

/-- The functions that code can call, by name, over a state of type `σ`. -/
abbrev Calls (σ : Type) := String → List Word → σ → Word × σ

/-- What the caller gives. -/
structure Input where
  receiver : Word
  args : List Word

structure Machine (σ : Type) where
  regs : Store := {}
  locals : Store := {}
  host : σ

namespace Machine

variable {σ : Type}

def get (m : Machine σ) (r : Reg) : Word := m.regs.get r.index

def set (m : Machine σ) (r : Reg) (w : Word) : Machine σ :=
  { m with regs := m.regs.set r.index w }

theorem get_set (m : Machine σ) (r q : Reg) (w : Word) :
    (m.set r w).get q = if q = r then w else m.get q := by
  cases r; cases q; simp [get, set, Store.get_set]

/-- Writes to each register what its source held before. -/
def copy (m : Machine σ) (copies : List (Reg × Reg)) : Machine σ :=
  (copies.map fun (dest, source) => (dest, m.get source)).foldl
    (fun m (dest, w) => m.set dest w) m

end Machine

def ofBool (b : Bool) : Word := if b then 1 else 0

variable {σ : Type}

def Stmt.exec (calls : Calls σ) (input : Input) (s : Stmt) (m : Machine σ) : Machine σ :=
  match s with
  | const d w => m.set d w
  | receiver d => m.set d input.receiver
  | arg d i => m.set d (input.args.getD i 0)
  | loadLocal d i => m.set d (m.locals.get i)
  | storeLocal i v => { m with locals := m.locals.set i (m.get v) }
  | and d l r => m.set d (m.get l &&& m.get r)
  | eq d l r => m.set d (ofBool (m.get l == m.get r))
  | ne d l r => m.set d (ofBool (m.get l != m.get r))
  | call d callee args =>
    let (w, host) := calls callee (args.map m.get) m.host
    { m with host }.set d w
  | phi _ _ => m

/-- Copies that a phi asks for at the end of block `pred`. -/
def Stmt.copies (pred : BlockId) : Stmt → List (Reg × Reg)
  | phi d sources => (sources.filter (·.1 = pred)).map fun (_, r) => (d, r)
  | _ => []

/-- How an execution ends. -/
inductive Outcome
  | returned (w : Word)
  | trapped
  deriving DecidableEq, Repr

inductive Next
  | goto (b : BlockId)
  | stop (outcome : Outcome)
  deriving DecidableEq, Repr

def Terminator.next (t : Terminator) (get : Reg → Word) : Next :=
  match t with
  | jump b => .goto b
  | branch c t e => .goto (if get c ≠ 0 then t else e)
  | switch v cases other => .goto ((cases.lookup (get v)).getD other)
  | ret v => .stop (.returned (get v))
  | unreachable | missing => .stop .trapped

namespace Func

def copies (f : Func) (pred : BlockId) : List (Reg × Reg) := f.stmts.flatMap (Stmt.copies pred)

/-- Executes one block. -/
def step (f : Func) (calls : Calls σ) (input : Input) (b : BlockId) (m : Machine σ) :
    Next × Machine σ :=
  let m := (f.block b).stmts.foldl (fun m s => s.exec calls input m) m
  let m := m.copy (f.copies b)
  ((f.block b).terminator.next m.get, m)

/-- Executes up to `fuel` blocks from block `b` on; `none` if that is not the end. -/
def runFrom (f : Func) (calls : Calls σ) (input : Input) :
    Nat → BlockId → Machine σ → Option (Outcome × σ)
  | 0, _, _ => none
  | fuel + 1, b, m =>
    match f.step calls input b m with
    | (.goto b, m) => f.runFrom calls input fuel b m
    | (.stop outcome, m) => some (outcome, m.host)

def run (f : Func) (calls : Calls σ) (input : Input) (host : σ) (fuel : Nat) :
    Option (Outcome × σ) :=
  f.runFrom calls input fuel entry { host }

end Func

end StackFlow.IR
