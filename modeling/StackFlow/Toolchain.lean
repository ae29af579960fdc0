import StackFlow.Call
import StackFlow.Compiled
import StackFlow.IR.Text

/-!
From a method to what a backend makes of it.
-/
namespace StackFlow

open IR (Func LinkError Executable)

inductive CodegenError
  | refused (reason : String)
  | lowering (function : String) (reason : LinkError)
  deriving DecidableEq, Repr

def CodegenError.message? : CodegenError → Option String
  | refused reason => some s!"backend error: {reason}"
  | lowering f reason => reason.message?.map fun text => s!"lowering failed in {f}: {text}"

inductive BuildError
  | compile (error : CompileError)
  | codegen (error : CodegenError)
  deriving DecidableEq, Repr

def BuildError.message? : BuildError → Option String
  | compile e => some s!"compile error: {e.message}"
  | codegen e => e.message?.map fun text => s!"codegen error: {text}"

/-- Makes products of type `κ`; `σ` is what it keeps from one function to the next. -/
structure Backend (σ κ : Type) where
  name : String
  generate : Func → ExternTable → σ → Traced CodegenError κ × σ

namespace Backend

/-- Links functions, so that they can be called. -/
def native : Backend Unit Executable where
  name := "cranelift"
  generate f t s :=
    match f.link t with
    | .ok x => ({ events := [.finalized f.name], result := .ok x }, s)
    | .error e => (Traced.throw (.lowering f.name e), s)

end Backend

structure Toolchain where
  externs : ExternTable := .standard
  lowering : Lowering := .standard
  /-- Report the listing of a method that has an unsupported instruction. -/
  listUnsupported : Bool := true

namespace Toolchain

def compile (t : Toolchain) (m : Method) : Traced CompileError Compiled :=
  Compiler.compile ⟨m, t.lowering, t.listUnsupported⟩ t.externs

/-- Compiles a method and hands it to the backend. -/
def build {σ κ : Type} (t : Toolchain) (backend : Backend σ κ) (m : Method) (s : σ) :
    Traced BuildError (Compiled × κ) × σ :=
  let compiled := (t.compile m).mapError .compile
  match compiled.result with
  | .error e => ({ events := compiled.events, result := .error e }, s)
  | .ok k =>
    let (product, s) := backend.generate k.func t.externs s
    let product := product.mapError .codegen
    ({ events := compiled.events ++ product.events, result := product.result.map (k, ·) }, s)

end Toolchain

inductive OptLevel
  | none
  | speed
  | speedAndSize
  deriving DecidableEq, Repr

/-- Settings for making callable methods. The level tells how hard the backend tries; it changes no
result. -/
structure Config where
  optLevel : OptLevel := .speed
  /-- Report the register code of every method. -/
  dumpCode : Bool := false
  listUnsupported : Bool := true
  deriving DecidableEq, Repr

/-- Makes methods callable. -/
structure Engine where
  config : Config := {}
  externs : ExternTable := .standard

namespace Engine

def toolchain (e : Engine) : Toolchain :=
  { externs := e.externs, listUnsupported := e.config.listUnsupported }

def compile (e : Engine) (m : Method) : Traced BuildError Executable := do
  let (_, x) ← (e.toolchain.build .native m ()).1
  if e.config.dumpCode then Traced.report (.code x.func.text)
  Traced.report (.methodReady m.name Backend.native.name)
  return x

end Engine

end StackFlow
