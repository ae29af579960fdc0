import StackFlow.Extern
import StackFlow.IR.Exec
import StackFlow.IR.Preorder

/-!
Linking: a function is bound to the host functions that it calls. What is wrong is looked for block by
block in the order of `Func.reachable`, statements before the terminator; the arity of a host function
is compared only where it is called first.

A name stands for one function in what is linked, and the function that is linked has a name as well. So
a host function of that name is never called: if it takes as many words as the function, a call of it is
a call of the function itself, and if not, the name cannot be declared for both. A function that does
not call its own name runs as `Func.run` says (`Executable.run_eq`).
-/
namespace StackFlow.IR

/-! ### What is linked -/

inductive LinkError
  | unknownExtern (name : String)
  | externArity (name : String) (expected got : Nat)
  | missingTerminator (block : BlockId)
  /-- The host function has the name of the function, but takes another number of words. -/
  | ownName (name : String)
  deriving DecidableEq, Repr

/-- What is wrong, in words. A name that cannot be declared again is reported in the words of the
library that keeps the names. -/
def LinkError.message? : LinkError → Option String
  | unknownExtern name => some s!"call to unknown extern {name}"
  | externArity name expected got => some s!"extern {name} takes {expected} arguments, got {got}"
  | missingTerminator b => some s!"{b.text} has no terminator"
  | ownName _ => none

/-- Words that a linked function takes: the receiver and the place of the arguments. -/
def entryArity : Nat := 2

/-- Name of the function that the statement calls and the number of arguments. -/
def Stmt.callee? : Stmt → Option (String × Nat)
  | call _ callee args => some (callee, args.length)
  | _ => none

namespace Func

def calls (f : Func) : List (String × Nat) := f.stmts.filterMap Stmt.callee?

/-- Links a call; `known` holds the names linked before. -/
def linkCall (f : Func) (t : ExternTable) (known : List String) (callee : String) (count : Nat) :
    Except LinkError (List String) :=
  if callee ∈ known then .ok known
  else
    match t.get? callee with
    | none => .error (.unknownExtern callee)
    | some e =>
      if e.arity ≠ count then .error (.externArity callee e.arity count)
      else if callee = f.name ∧ e.arity ≠ entryArity then .error (.ownName callee)
      else .ok (callee :: known)

def linkStmt (f : Func) (t : ExternTable) (known : List String) : Stmt → Except LinkError (List String)
  | .call _ callee args => f.linkCall t known callee args.length
  | _ => .ok known

def linkBlock (f : Func) (t : ExternTable) (known : List String) (b : BlockId) :
    Except LinkError (List String) := do
  let known ← (f.block b).stmts.foldlM (f.linkStmt t) known
  if (f.block b).terminator = .missing then throw (.missingTerminator b)
  return known

/-- Names of the functions that the reachable blocks call. -/
def imports (f : Func) (t : ExternTable) : Except LinkError (List String) :=
  f.reachable.foldlM (f.linkBlock t) []

/-- Some call gives the name of the function itself. -/
def CallsItself (f : Func) : Prop := f.name ∈ f.calls.map Prod.fst

instance (f : Func) : Decidable f.CallsItself :=
  inferInstanceAs (Decidable (f.name ∈ f.calls.map Prod.fst))

end Func

/-- A linked function. -/
structure Executable where
  func : Func
  externs : ExternTable

def Func.link (f : Func) (t : ExternTable) : Except LinkError Executable :=
  (f.imports t).map fun _ => ⟨f, t⟩

theorem Func.link_eq_ok_iff {f : Func} {t : ExternTable} {x : Executable} :
    f.link t = .ok x ↔ (∃ names, f.imports t = .ok names) ∧ x = ⟨f, t⟩ := by
  unfold Func.link
  cases f.imports t <;> simp [Except.map, eq_comm]

/-! ### Execution of linked code -/

/-- Words by their address; `none` where reading traps. -/
abbrev Memory := Word → Option Word

/-- What a linked function is called with. An argument is read where it is used. -/
structure Activation where
  receiver : Word
  arg? : Nat → Option Word

namespace Activation

/-- A call from outside; arguments that are not given are 0. -/
def ofInput (input : Input) : Activation :=
  ⟨input.receiver, fun i => some (input.args.getD i 0)⟩

/-- A call from within gives the address of the first argument. -/
def ofPlace (memory : Memory) (receiver place : Word) : Activation :=
  ⟨receiver, fun i => memory (place + .ofNat (i * pointerBytes))⟩

end Activation

namespace Executable

/-- Executes a statement, where `again` is a call of the function itself. If that does not come back,
the execution has ended; the error holds how. -/
def exec (x : Executable) (a : Activation) (again : Word → Word → Host → Option (Outcome × Host))
    (m : Machine Host) (s : Stmt) : Except (Option (Outcome × Host)) (Machine Host) :=
  match s with
  | .arg d i =>
    match a.arg? i with
    | some w => .ok (m.set d w)
    | none => .error (some (.trapped, m.host))
  | .call d callee args =>
    if callee = x.func.name then
      let words := args.map m.get
      match again (words.getD 0 0) (words.getD 1 0) m.host with
      | some (.returned w, host) => .ok ({ m with host }.set d w)
      | ended => .error ended
    else .ok (s.exec x.externs.call ⟨a.receiver, []⟩ m)
  | _ => .ok (s.exec x.externs.call ⟨a.receiver, []⟩ m)

/-- Executes up to `fuel` blocks from block `b` on, one after the other or one within the other; `none`
if that is not the end. -/
def runFrom (x : Executable) (memory : Memory) :
    Nat → Activation → BlockId → Machine Host → Option (Outcome × Host)
  | 0, _, _, _ => none
  | fuel + 1, a, b, m =>
    let again receiver place host :=
      x.runFrom memory fuel (.ofPlace memory receiver place) Func.entry { host }
    match (x.func.block b).stmts.foldlM (x.exec a again) m with
    | .error ended => ended
    | .ok m =>
      let m := m.copy (x.func.copies b)
      match (x.func.block b).terminator.next m.get with
      | .goto b => x.runFrom memory fuel a b m
      | .stop outcome => some (outcome, m.host)

def run (x : Executable) (input : Input) (host : Host) (fuel : Nat)
    (memory : Memory := fun _ => none) : Option (Outcome × Host) :=
  x.runFrom memory fuel (.ofInput input) Func.entry { host }

end Executable

end StackFlow.IR
