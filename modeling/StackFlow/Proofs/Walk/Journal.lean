import StackFlow.Compiled
import StackFlow.Proofs.Lowering.Emit

/-!
A compilation with a journal: which edges were followed, and how each block was first entered. Main
statement: keeping the journal changes nothing (`compile_result_eq`).
-/
namespace StackFlow

open IR (Reg BlockId)

namespace Traced

variable {ε α β γ : Type} {x : Traced ε α} {f g : α → Traced ε β}

theorem bind_of_error {e : ε} (h : x.result = .error e) : x >>= f = ⟨x.events, .error e⟩ := by
  obtain ⟨events, result⟩ := x
  cases h
  rfl

theorem bind_of_ok {a : α} (h : x.result = .ok a) :
    x >>= f = ⟨x.events ++ (f a).events, (f a).result⟩ := by
  obtain ⟨events, result⟩ := x
  cases h
  rfl

/-- Only what comes after a result matters. -/
theorem bind_congr (h : ∀ a, x.result = .ok a → f a = g a) : x >>= f = x >>= g := by
  cases hx : x.result with
  | error e => rw [bind_of_error hx, bind_of_error hx]
  | ok a => rw [bind_of_ok hx, bind_of_ok hx, h a hx]

end Traced

/-- The first entry of a basic block. -/
structure Visit where
  /-- The block as the table had it, with the values that wait. -/
  block : BasicBlock
  /-- The edge that led there; the block at position 0 is entered without one. -/
  via : Option Edge
  /-- The stack that the block was entered with, without a value that waits. -/
  entry : OperandStack
  /-- The stack just after entry, with the joined value in place. -/
  opened : OperandStack
  /-- Number of the first register that the block can define. -/
  first : Nat
  /-- The edges that leave the block. -/
  edges : List Edge
  deriving DecidableEq, Repr

namespace Visit

def start (v : Visit) : Nat := v.block.start

def handle (v : Visit) : BlockId := v.block.handle

end Visit

structure Journal where
  walk : Walk
  /-- Edges that are still to be followed. -/
  pending : List Edge
  /-- Edges that were followed, in this order. -/
  passed : List Edge := []
  /-- Blocks that were entered, in this order. -/
  visits : List Visit := []

namespace Journal

def compiled (j : Journal) : Compiled := ⟨j.walk.builder.func, j.walk.table⟩

end Journal

/-- The visit that entering the block at `start` is, unless there is nothing to compile. -/
def Walk.visit? (w : Walk) (via : Option Edge) (start : Nat) (s : OperandStack)
    (edges : List Edge) : Option Visit :=
  match w.table.block? start with
  | none => none
  | some block =>
    if block.compiled then none
    else
      match Compiler.join block s (w.builder.switchTo block.handle) with
      | .ok (_, opened, _) => some ⟨block, via, s, opened, w.builder.func.nextReg, edges⟩
      | .error _ => none

namespace Compiler

theorem visit_nil (c : Compiler) (w : Walk) : c.visit [] w = pure w := by rw [visit]

/-- The walk follows the first edge, and then those that come from it before the others. -/
theorem visit_cons (c : Compiler) (e : Edge) (rest : List Edge) (w : Walk) :
    c.visit (e :: rest) w = c.follow e w >>= fun r => c.visit (r.2 ++ rest) r.1 := by
  rw [visit]
  dsimp only
  split
  next err failed => rw [Traced.bind_of_error failed]
  next w' new followed => rw [Traced.bind_of_ok followed]

/-- Enters the block at `start` and notes it. -/
def noteEntry (c : Compiler) (via : Option Edge) (start : Nat) (s : OperandStack) (j : Journal) :
    Except CompileError Journal := do
  let (w, edges) ← (c.enter start s j.walk).result
  return { j with
    walk := w
    pending := edges ++ j.pending
    visits := j.visits ++ (j.walk.visit? via start s edges).toList }

/-- Follows the first of the edges that are left. -/
def advance (c : Compiler) (j : Journal) : Except CompileError Journal :=
  match j.pending with
  | [] => .ok j
  | e :: rest => do
    let (s, w) ← (j.walk.arrive e).result
    c.noteEntry (some e) e.dest s { j with walk := w, pending := rest, passed := j.passed ++ [e] }

theorem advance_cons {c : Compiler} {j : Journal} {e : Edge} {rest : List Edge}
    (hp : j.pending = e :: rest) :
    (c.advance j).map (fun j => (j.walk, j.pending)) =
      (c.follow e j.walk).result.map fun (w, new) => (w, new ++ rest) := by
  unfold advance follow
  rw [hp, Traced.result_bind]
  dsimp only
  cases (j.walk.arrive e).result with
  | error err => rfl
  | ok p =>
    simp only [bind, Except.bind, noteEntry]
    cases (c.enter e.dest p.1 p.2).result <;> rfl

/-- A step leaves fewer blocks to compile, or as many and fewer edges to follow. -/
theorem measure_advance {c : Compiler} {j j' : Journal} {e : Edge} {rest : List Edge}
    (hp : j.pending = e :: rest) (h : c.advance j = .ok j') :
    Prod.Lex (· < ·) (· < ·) (j'.walk.table.uncompiled, j'.pending.length)
      (j.walk.table.uncompiled, j.pending.length) := by
  have hf := advance_cons (c := c) hp
  rw [h] at hf
  cases hr : (c.follow e j.walk).result with
  | error e => rw [hr] at hf; cases hf
  | ok p =>
    rw [hr] at hf
    obtain ⟨hw, hn⟩ := Prod.mk.inj (Except.ok.inj hf)
    rw [hw, hn, hp]
    rcases uncompiled_follow hr with lt | ⟨le, hnil⟩
    · exact Prod.Lex.left _ _ lt
    · rw [hnil]
      exact Prod.Lex.right' _ le (by simp)

/-- Follows the edges that are left and all that come from them. -/
def complete (c : Compiler) (j : Journal) : Except CompileError Journal :=
  match _hp : j.pending with
  | [] => .ok j
  | _ :: _ =>
    match _h : c.advance j with
    | .error e => .error e
    | .ok j' => c.complete j'
termination_by (j.walk.table.uncompiled, j.pending.length)
decreasing_by exact measure_advance _hp _h

/-- The journal after the block at position 0. -/
def begin (c : Compiler) (x : ExternTable) : Except CompileError Journal := do
  let w ← (c.prologue x).result
  c.noteEntry none 0 { max := c.method.stackMax } { walk := w, pending := [] }

/-- The journal of a whole compilation. -/
def journal (c : Compiler) (x : ExternTable) : Except CompileError Journal := do
  c.complete (← c.begin x)

theorem complete_eq_of_advance {c : Compiler} {j j' : Journal} (h : c.advance j = .ok j') :
    c.complete j = c.complete j' := by
  cases hp : j.pending with
  | nil =>
    unfold advance at h
    rw [hp] at h
    cases h
    rfl
  | cons e rest =>
    rw [complete]
    split
    next hnil => rw [hp] at hnil; cases hnil
    next =>
      split
      next he => rw [h] at he; cases he
      next he => rw [h] at he; cases he; rfl

/-- Follows so many of the edges that are left, with those that come from them. -/
def advanceBy (c : Compiler) : Nat → Journal → Except CompileError Journal
  | 0, j => .ok j
  | n + 1, j => do c.advanceBy n (← c.advance j)

theorem complete_of_advanceBy {c : Compiler} {n : Nat} {j j' : Journal}
    (h : c.advanceBy n j = .ok j') (done : j'.pending = []) : c.complete j = .ok j' := by
  induction n generalizing j with
  | zero =>
    cases h
    rw [complete]
    split
    next => rfl
    next hp => rw [done] at hp; cases hp
  | succ n ih =>
    obtain ⟨j₁, h₁, h₂⟩ := bind_eq_ok h
    rw [complete_eq_of_advance h₁, ih h₂]

/-- Finds out about the journal of a concrete method. -/
theorem journal_of_advanceBy {c : Compiler} {x : ExternTable} {P : Journal → Prop}
    [DecidablePred P] (n : Nat)
    (h : (do c.advanceBy n (← c.begin x)).map
      (fun j : Journal => decide (j.pending = [] ∧ P j)) = .ok true) :
    ∃ j, c.journal x = .ok j ∧ P j := by
  cases hb : (do c.advanceBy n (← c.begin x) : Except CompileError Journal) with
  | error e => rw [hb] at h; cases h
  | ok j =>
    rw [hb] at h
    obtain ⟨done, hP⟩ := of_decide_eq_true (Except.ok.inj h)
    obtain ⟨j₀, h₀, h₁⟩ := bind_eq_ok hb
    refine ⟨j, ?_, hP⟩
    unfold journal
    rw [h₀]
    exact complete_of_advanceBy h₁ done

/-- What every step keeps holds at the end. -/
theorem complete_induction {c : Compiler} {P : Journal → Prop}
    (step : ∀ j j' e rest, j.pending = e :: rest → c.advance j = .ok j' → P j → P j')
    {j j' : Journal} (h : c.complete j = .ok j') (hj : P j) : P j' ∧ j'.pending = [] := by
  fun_induction complete c j with
  | case1 j hp => cases h; exact ⟨hj, hp⟩
  | case2 => cases h
  | case3 j e rest hp j₁ hs ih => exact ih h (step j j₁ e rest hp hs hj)

theorem journal_induction {c : Compiler} {x : ExternTable} {P : Journal → Prop}
    (base : ∀ j, c.begin x = .ok j → P j)
    (step : ∀ j j' e rest, j.pending = e :: rest → c.advance j = .ok j' → P j → P j')
    {j : Journal} (h : c.journal x = .ok j) : P j ∧ j.pending = [] := by
  obtain ⟨j₀, h₀, h₁⟩ := bind_eq_ok h
  exact complete_induction step h₁ (base j₀ h₀)

theorem visit_result_eq (c : Compiler) (j : Journal) :
    (c.visit j.pending j.walk).result = (c.complete j).map (·.walk) := by
  fun_induction complete c j with
  | case1 j hp => rw [hp, visit_nil]; rfl
  | case2 j e rest hp err hs =>
    have hf := advance_cons (c := c) hp
    rw [hs] at hf
    rw [hp, visit_cons, Traced.result_bind]
    cases hr : (c.follow e j.walk).result with
    | ok p => rw [hr] at hf; cases hf
    | error err' =>
      rw [hr] at hf
      cases hf
      rfl
  | case3 j e rest hp j₁ hs ih =>
    have hf := advance_cons (c := c) hp
    rw [hs] at hf
    rw [hp, visit_cons, Traced.result_bind]
    cases hr : (c.follow e j.walk).result with
    | error err' => rw [hr] at hf; cases hf
    | ok p =>
      rw [hr] at hf
      obtain ⟨hw, hn⟩ := Prod.mk.inj (Except.ok.inj hf)
      rw [← ih, hw, hn]
      rfl

/-- A compilation gives what its journal ends with, or fails with the same error. -/
theorem compile_result_eq (c : Compiler) (x : ExternTable) :
    (c.compile x).result = (c.journal x).map Journal.compiled := by
  unfold compile journal begin noteEntry
  rw [Traced.result_bind]
  cases (c.prologue x).result with
  | error err => rfl
  | ok w =>
    simp only [bind, Except.bind]
    change (Bind.bind (c.enter 0 _ w) _ : Traced CompileError Compiled).result = _
    rw [Traced.result_bind]
    cases (c.enter 0 { max := c.method.stackMax } w).result with
    | error err => rfl
    | ok p =>
      simp only [bind, Except.bind]
      change (Bind.bind (c.visit p.2 p.1) _ : Traced CompileError Compiled).result = _
      have hv := visit_result_eq c ⟨p.1, p.2 ++ [], [],
        [] ++ (w.visit? none 0 { max := c.method.stackMax } p.2).toList⟩
      simp only [List.append_nil] at hv
      rw [Traced.result_bind, hv]
      simp only [pure, Except.pure, List.append_nil]
      cases c.complete _ <;> rfl

theorem compile_of_journal {c : Compiler} {x : ExternTable} {j : Journal}
    (h : c.journal x = .ok j) : (c.compile x).result = .ok j.compiled := by
  rw [compile_result_eq, h]
  rfl

theorem journal_of_compile {c : Compiler} {x : ExternTable} {k : Compiled}
    (h : (c.compile x).result = .ok k) : ∃ j, c.journal x = .ok j ∧ k = j.compiled := by
  rw [compile_result_eq] at h
  cases hj : c.journal x with
  | error e => rw [hj] at h; cases h
  | ok j => rw [hj] at h; cases h; exact ⟨j, rfl, rfl⟩

end Compiler

end StackFlow
