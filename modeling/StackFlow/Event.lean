import StackFlow.IR.Func
import StackFlow.Instr

/-!
Events: what compiling and running a method report on the way, as data and as log records.
-/
namespace StackFlow

open IR (Reg BlockId)

inductive Event
  /-- Starts of the basic blocks of a method. -/
  | blockStarts (method : String) (starts : List Nat)
  /-- A basic block and the block of register code that is to take it. -/
  | block (start last : Nat) (handle : BlockId)
  /-- Compilation enters a block. -/
  | enterBlock (start last : Nat) (handle : BlockId) (depth incoming : Nat)
  /-- Compilation comes to an instruction. -/
  | instr (position : Nat) (opcode : Opcode) (depth : Nat)
  | backwardEdge (source dest : Nat)
  /-- A forward edge brings a value. -/
  | incoming (source dest : Nat) (value : Reg) (pred : BlockId)
  | unsupported (opcode : Opcode) (position : Nat) (listing : String) (starts : List Nat)
      (blocks : String)
  | methodCompiled (method : String) (blocks compiled phis : Nat)
  | finalized (method : String)
  | code (text : String)
  | methodReady (method backend : String)
  | thrown (state : Word) (value : Value)
  deriving DecidableEq, Repr

inductive Level
  | trace
  | debug
  | warn
  deriving DecidableEq, Repr

def Level.text : Level → String
  | trace => "TRACE"
  | debug => "DEBUG"
  | warn => "WARN"

/-- An event as it stands in the log. -/
structure Record where
  level : Level
  target : String
  message : String
  fields : List (String × String)
  deriving DecidableEq, Repr

namespace Event

def compileTarget : String := "basalt::jit::compile"

def record : Event → Record
  | blockStarts method starts =>
    ⟨.trace, "basalt::jit::boundaries", "block starts",
      [("name", method), ("starts", Numeral.bracketed starts)]⟩
  | block start last handle =>
    ⟨.trace, "basalt::jit::cfg", "block",
      [("start", toString start), ("end", toString last), ("handle", handle.text)]⟩
  | enterBlock start last handle depth waiting =>
    ⟨.trace, compileTarget, "enter block",
      [("start", toString start), ("end", toString last), ("handle", handle.text),
        ("depth", toString depth), ("incoming", toString waiting)]⟩
  | instr position opcode depth =>
    ⟨.trace, compileTarget, "lower",
      [("position", toString position), ("opcode", opcode.mnemonic), ("depth", toString depth)]⟩
  | backwardEdge source dest =>
    ⟨.trace, compileTarget, "backward edge",
      [("from", toString source), ("dest", toString dest)]⟩
  | incoming source dest value pred =>
    ⟨.trace, compileTarget, "incoming",
      [("from", toString source), ("dest", toString dest), ("value", value.text),
        ("pred", pred.text)]⟩
  | unsupported opcode position listing starts blocks =>
    ⟨.warn, compileTarget,
      "unsupported instruction\n" ++ listing ++ "block starts: " ++ Numeral.bracketed starts ++
        "\n" ++ blocks,
      [("opcode", opcode.mnemonic), ("position", toString position)]⟩
  | methodCompiled method blocks compiled phis =>
    ⟨.debug, compileTarget, "compiled method",
      [("name", method), ("blocks", toString blocks), ("compiled", toString compiled),
        ("phis", toString phis)]⟩
  | finalized method => ⟨.debug, "basalt::jit::codegen", "finalized function", [("name", method)]⟩
  | code text => ⟨.debug, "basalt::jit::engine", text, []⟩
  | methodReady method backend =>
    ⟨.debug, "basalt::jit::engine", "compiled", [("name", method), ("backend", backend)]⟩
  | thrown state value =>
    ⟨.trace, "basalt::jit::runtime", "throw",
      [("state", toString state.toNat), ("value", value.text)]⟩

end Event

/-- A computation that reports events on the way and then fails or succeeds. -/
structure Traced (ε α : Type) where
  events : List Event := []
  result : Except ε α

namespace Traced

variable {ε ε' α β : Type}

instance : Monad (Traced ε) where
  pure a := { result := .ok a }
  bind x f :=
    match x.result with
    | .error e => { events := x.events, result := .error e }
    | .ok a =>
      let y := f a
      { events := x.events ++ y.events, result := y.result }

instance : MonadLift (Except ε) (Traced ε) where
  monadLift x := { result := x }

def report (e : Event) : Traced ε Unit := { events := [e], result := .ok () }

def reportAll (es : List Event) : Traced ε Unit := { events := es, result := .ok () }

def throw (e : ε) : Traced ε α := { result := .error e }

def mapError (f : ε → ε') (x : Traced ε α) : Traced ε' α :=
  { events := x.events, result := x.result.mapError f }

@[simp] theorem result_pure (a : α) : (pure a : Traced ε α).result = .ok a := rfl

@[simp] theorem result_bind (x : Traced ε α) (f : α → Traced ε β) :
    (x >>= f).result = x.result >>= fun a => (f a).result := by
  show (match x.result with | .error e => _ | .ok a => _ : Traced ε β).result = _
  cases x.result <;> rfl

@[simp] theorem result_report (e : Event) : (report e : Traced ε Unit).result = .ok () := rfl

@[simp] theorem result_monadLift (x : Except ε α) :
    (monadLift x : Traced ε α).result = x := rfl

@[simp] theorem result_throw (e : ε) : (throw e : Traced ε α).result = .error e := rfl

theorem result_bind_eq_ok {x : Traced ε α} {f : α → Traced ε β} {b : β}
    (h : (x >>= f).result = .ok b) : ∃ a, x.result = .ok a ∧ (f a).result = .ok b := by
  rw [result_bind] at h
  cases hx : x.result with
  | error e => rw [hx] at h; cases h
  | ok a => rw [hx] at h; exact ⟨a, rfl, h⟩

end Traced

end StackFlow
