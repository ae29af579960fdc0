import StackFlow.IR.Func

/-!
Register code as text.
-/
namespace StackFlow.IR

private def commaSeparated (parts : List String) : String := ", ".intercalate parts

def Stmt.text : Stmt → String
  | const d w => s!"{d.text} = const {Numeral.hex w}"
  | receiver d => s!"{d.text} = self"
  | arg d i => s!"{d.text} = arg {i}"
  | loadLocal d i => s!"{d.text} = load.local {i}"
  | storeLocal i v => s!"store.local {i}, {v.text}"
  | and d l r => s!"{d.text} = iand {l.text}, {r.text}"
  | eq d l r => s!"{d.text} = icmp.eq {l.text}, {r.text}"
  | ne d l r => s!"{d.text} = icmp.ne {l.text}, {r.text}"
  | call d callee args =>
    s!"{d.text} = call @{callee}(" ++ commaSeparated (args.map Reg.text) ++ ")"
  | phi d sources =>
    s!"{d.text} = phi [" ++
      commaSeparated (sources.map fun (b, r) => s!"{b.text}: {r.text}") ++ "]"

def Terminator.text : Terminator → String
  | jump t => s!"jmp {t.text}"
  | branch c t e => s!"br {c.text}, {t.text}, {e.text}"
  | switch v cases other =>
    s!"switch {v.text} [" ++
      commaSeparated (cases.map (fun (k, b) => s!"{Numeral.hex k}: {b.text}") ++
        [s!"default: {other.text}"]) ++ "]"
  | ret v => s!"ret {v.text}"
  | unreachable => "unreachable"
  | missing => "<no terminator>"

/-- A block under its name, with its predecessors in a comment where it has any. -/
def Block.text (b : Block) (id : BlockId) : String :=
  let preds := if b.preds.isEmpty then ""
    else "    ; preds:" ++ String.join (b.preds.map fun p => " " ++ p.text) ++ "\n"
  s!"  {id.text}:\n" ++ preds ++ String.join (b.stmts.map fun s => s!"    {s.text}\n") ++
    s!"    {b.terminator.text}\n"

def Func.text (f : Func) : String :=
  s!"function @{f.name} (params: {f.params}, locals: {f.locals}) \x7b\n" ++
    String.join (f.blocks.mapIdx fun i b => b.text ⟨i⟩) ++ "\x7d\n"

end StackFlow.IR
