import Mathlib.Data.List.Basic
import StackFlow.Proofs.IR.Run

/-!
Paths through a function, and the registers that are written along them and read at their ends.
-/
namespace StackFlow.IR

/-- Registers that the terminator reads. -/
def Terminator.uses : Terminator → List Reg
  | branch c _ _ => [c]
  | switch v _ _ => [v]
  | ret v => [v]
  | jump _ | unreachable | missing => []

/-- The register that the statement gives a value in a block entered from `pred`: a phi has one only
from a source that names this block. -/
def Stmt.writes? (pred : Option BlockId) : Stmt → Option Reg
  | phi d sources => if sources.any (some ·.1 = pred) then some d else none
  | s => s.dest?

def writes (pred : Option BlockId) (code : List Stmt) : List Reg :=
  code.filterMap (Stmt.writes? pred)

@[simp] theorem writes_append (pred : Option BlockId) (c d : List Stmt) :
    writes pred (c ++ d) = writes pred c ++ writes pred d :=
  List.filterMap_append

/-- Code without a phi writes whatever it defines. -/
theorem writes_eq_dests {code : List Stmt} (h : ∀ s ∈ code, s.isPhi = false)
    (pred : Option BlockId) : writes pred code = dests code := by
  apply List.filterMap_congr
  intro s hs
  have := h s hs
  cases s <;> first | rfl | cases this

namespace Func

variable (f : Func)

/-- A path that control can take from the entry, the last block first. -/
inductive Path : List BlockId → Prop
  | entry : Path [entry]
  | step {p b : BlockId} {before : List BlockId} (path : Path (p :: before))
      (next : b ∈ f.successors p) : Path (b :: p :: before)

theorem Path.of_cons {f : Func} {p b : BlockId} {before : List BlockId}
    (h : f.Path (b :: p :: before)) : f.Path (p :: before) := by
  cases h with
  | step path _ => exact path

/-- Registers that are written along a path, its last block included. -/
def written (f : Func) : List BlockId → List Reg
  | [] => []
  | b :: before => writes before.head? (f.code b) ++ f.written before

/-- The block reads the register when it has executed `done`: in its next statement, or at its end in
a copy to a phi or in its terminator. -/
inductive Reads (b : BlockId) : List Stmt → Reg → Prop
  | stmt {done rest : List Stmt} {s : Stmt} {r : Reg} (code : f.code b = done ++ s :: rest)
      (plain : s.isPhi = false) (use : r ∈ s.uses) : Reads b done r
  | copy {d r : Reg} (copy : (d, r) ∈ f.copies b) : Reads b (f.code b) r
  | terminator {r : Reg} (use : r ∈ (f.exit b).uses) : Reads b (f.code b) r

end Func

/-- The code reads only what is given and what it has defined itself. -/
def Closed (given : Reg → Prop) : List Stmt → Prop
  | [] => True
  | s :: code => (∀ r ∈ s.uses, given r) ∧ Closed (fun r => given r ∨ s.dest? = some r) code

namespace Closed

theorem mono {given given' : Reg → Prop} {code : List Stmt} (h : Closed given code)
    (le : ∀ r, given r → given' r) : Closed given' code := by
  induction code generalizing given given' with
  | nil => trivial
  | cons s code ih =>
    refine ⟨fun r hr => le r (h.1 r hr), ih h.2 ?_⟩
    rintro r (hr | hr)
    · exact .inl (le r hr)
    · exact .inr hr

theorem append {given : Reg → Prop} {c d : List Stmt} (hc : Closed given c)
    (hd : Closed (fun r => given r ∨ r ∈ dests c) d) : Closed given (c ++ d) := by
  induction c generalizing given with
  | nil => exact hd.mono fun r hr => hr.resolve_right (by simp)
  | cons s c ih =>
    refine ⟨hc.1, ih hc.2 (hd.mono ?_)⟩
    rintro r (hr | hr)
    · exact .inl (.inl hr)
    · obtain ⟨t, ht, hdest⟩ := List.mem_filterMap.mp hr
      rcases List.mem_cons.mp ht with rfl | ht
      · exact .inl (.inr hdest)
      · exact .inr (List.mem_filterMap.mpr ⟨t, ht, hdest⟩)

theorem uses {given : Reg → Prop} {done rest : List Stmt} {s : Stmt}
    (h : Closed given (done ++ s :: rest)) {r : Reg} (hr : r ∈ s.uses) :
    given r ∨ r ∈ dests done := by
  induction done generalizing given with
  | nil => exact .inl (h.1 r hr)
  | cons t done ih =>
    rcases ih h.2 with (hg | hd) | hd
    · exact .inl hg
    · exact .inr (List.mem_filterMap.mpr ⟨t, List.mem_cons_self, hd⟩)
    · obtain ⟨u, hu, hd⟩ := List.mem_filterMap.mp hd
      exact .inr (List.mem_filterMap.mpr ⟨u, List.mem_cons_of_mem t hu, hd⟩)

end Closed

/-- A statement that is no phi comes after the phis at the head of a block. -/
theorem split_after_phis {phis code done rest : List Stmt} {s : Stmt}
    (hphis : ∀ t ∈ phis, t.isPhi = true) (plain : s.isPhi = false)
    (split : phis ++ code = done ++ s :: rest) :
    ∃ later, done = phis ++ later ∧ code = later ++ s :: rest := by
  rcases List.append_eq_append_iff.mp split with ⟨later, hdone, hcode⟩ | ⟨later, rfl, hcode⟩
  · exact ⟨later, hdone, hcode⟩
  · cases later with
    | nil => exact ⟨[], by simp, hcode.symm⟩
    | cons t later =>
      cases hcode
      have hphi := hphis s (by simp)
      rw [plain] at hphi
      cases hphi

end StackFlow.IR
