import StackFlow.Compile.Walk

/-!
The compilation of a method: all of its reachable blocks. Main statement: a step of the walk leaves
fewer blocks to compile, or as many and no new edges (`uncompiled_follow`), so that the walk ends.
-/
namespace StackFlow

open IR (Reg Builder Func)

namespace Compiler

theorem uncompiled_enter {c : Compiler} {start : Nat} {s : OperandStack} {w w' : Walk}
    {edges : List Edge} (h : (c.enter start s w).result = .ok (w', edges)) :
    w'.table.uncompiled < w.table.uncompiled ∨ w' = w ∧ edges = [] := by
  unfold enter at h
  split at h
  · cases h; exact .inr ⟨rfl, rfl⟩
  next block found =>
    split at h
    · cases h; exact .inr ⟨rfl, rfl⟩
    next fresh =>
      left
      obtain ⟨_, -, h⟩ := Traced.result_bind_eq_ok h
      obtain ⟨⟨merge, s', b⟩, -, h⟩ := Traced.result_bind_eq_ok h
      obtain ⟨⟨s', b⟩, -, h⟩ := Traced.result_bind_eq_ok h
      obtain ⟨⟨d, edges⟩, -, h⟩ := Traced.result_bind_eq_ok h
      cases h
      exact BlockTable.uncompiled_modify_lt found (by simpa using fresh) fun _ => rfl

theorem uncompiled_deliver {w w' : Walk} {block : BasicBlock} {e : Edge} {v : Reg}
    (h : w.deliver block e v = .ok w') : w'.table.uncompiled ≤ w.table.uncompiled := by
  unfold Walk.deliver at h
  split at h
  · split at h
    · cases h; exact Nat.le_refl _
    · cases h
  · split at h
    · cases h
    · cases h; exact BlockTable.uncompiled_modify_le _ _ _ fun _ hb => hb

theorem uncompiled_arrive {w w' : Walk} {e : Edge} {s : OperandStack}
    (h : (w.arrive e).result = .ok (s, w')) : w'.table.uncompiled ≤ w.table.uncompiled := by
  unfold Walk.arrive at h
  split at h
  · cases h; exact Nat.le_refl _
  split at h
  · cases h; exact Nat.le_refl _
  next block found =>
    dsimp only at h
    split at h
    · cases h
    have noted : ∀ x, (w.table.modify e.dest fun k => { k with carries := x }).uncompiled ≤
        w.table.uncompiled :=
      fun x => BlockTable.uncompiled_modify_le _ _ _ fun _ hb => hb
    split at h
    · cases h; exact noted _
    · obtain ⟨w₁, h₁, h⟩ := Traced.result_bind_eq_ok h
      obtain ⟨_, -, h⟩ := Traced.result_bind_eq_ok h
      cases h
      exact Nat.le_trans (uncompiled_deliver h₁) (noted _)

theorem uncompiled_follow {c : Compiler} {e : Edge} {w w' : Walk} {edges : List Edge}
    (h : (c.follow e w).result = .ok (w', edges)) :
    w'.table.uncompiled < w.table.uncompiled ∨
      w'.table.uncompiled ≤ w.table.uncompiled ∧ edges = [] := by
  obtain ⟨⟨s, w₁⟩, h₁, h⟩ := Traced.result_bind_eq_ok h
  have le := uncompiled_arrive h₁
  rcases uncompiled_enter h with lt | ⟨rfl, rfl⟩
  · exact .inl (Nat.lt_of_lt_of_le lt le)
  · exact .inr ⟨le, rfl⟩

/-- Follows the edges and all that come from them. -/
def visit (c : Compiler) (edges : List Edge) (w : Walk) : Traced CompileError Walk :=
  match edges with
  | [] => pure w
  | e :: rest =>
    let step := c.follow e w
    match _ : step.result with
    | .error e => { events := step.events, result := .error e }
    | .ok (w', new) =>
      let after := c.visit (new ++ rest) w'
      { events := step.events ++ after.events, result := after.result }
termination_by (w.table.uncompiled, edges.length)
decreasing_by
  rename_i h
  rcases uncompiled_follow h with lt | ⟨le, rfl⟩
  · exact Prod.Lex.left _ _ lt
  · exact Prod.Lex.right' _ le (by simp)

end Compiler

/-- A compiled method: its register code, and what became of its basic blocks. -/
structure Compiled where
  func : Func
  table : BlockTable

namespace Compiled

/-- Number of values that the phi of a block joins, where it has one. -/
def mergeIncoming? (k : Compiled) (start : Nat) : Option Nat := do
  let b ← k.table.block? start
  let _ ← b.merge
  return b.incoming k.func

end Compiled

/-- The walk before the first block: the function is entered at a block of its own, which sets up the
locals and jumps to the block at position 0. -/
def Compiler.prologue (c : Compiler) (externs : ExternTable) : Traced CompileError Walk := do
  let m := c.method
  let b := Builder.start m.name m.params m.locals externs
  let starts := m.blockStarts
  Traced.report (.blockStarts m.name starts)
  let (table, b) := BlockTable.ofStarts starts m.length b
  Traced.reportAll (table.blocks.map fun k => .block k.start k.last k.handle)
  let (_, d) ← ({ builder := b } : Draft).emit (c.lowering.prologue m)
  let first ← table.handle 0 0
  return { toDraft := d.terminate (.jump first), table }

/-- Compiles every block that control can reach. -/
def Compiler.compile (c : Compiler) (externs : ExternTable) : Traced CompileError Compiled := do
  let w ← c.prologue externs
  let (w, edges) ← c.enter 0 { max := c.method.stackMax } w
  let w ← c.visit edges w
  let func := w.builder.func
  Traced.report (.methodCompiled func.name w.table.blocks.length w.table.compiledStarts.length
    func.phiCount)
  return { func, table := w.table }

end StackFlow
