import StackFlow.Proofs.IR.WellFormed
import StackFlow.Proofs.Walk.Contents

/-!
The registers of the function while a compilation builds it: those in use are each defined once, and
the comparisons define those that are noted as bool (`Journal.Counted`).
-/
namespace StackFlow

open IR (Reg Stmt BlockId Func Terminator dests Numbered)

namespace Journal

structure Counted (m : Method) (j : Journal) : Prop where
  defined : (dests j.func.stmts).Perm ((List.range j.func.nextReg).map Reg.mk)
  bools : j.func.bools.Perm (j.func.stmts.filterMap Stmt.boolDest?)
  frame : j.func.frame = (m.params, m.locals)

variable {c : Compiler} {x : ExternTable} {j : Journal}

theorem Counted.init {w : Walk} (blank : w.Blank c.method x) :
    Counted c.method { walk := w, pending := [] } where
  defined := by
    dsimp only [func]
    rw [blank.nextReg, ← Lowering.dests_localsCode]
    exact blank.stmts.filterMap _
  bools := by
    dsimp only [func]
    have hperm := blank.stmts.filterMap Stmt.boolDest?
    rw [Lowering.localsCode_boolDest?] at hperm
    rw [blank.bools]
    exact hperm.symm
  frame := blank.frame

theorem Counted.pass {m : Method} {e : Edge} {rest : List Edge} {w : Walk} (h : Counted m j)
    (passes : j.walk.Passes e w) :
    Counted m { walk := w, pending := rest, passed := j.passed ++ [e], visits := j.visits } := by
  cases passes with
  | value _ _ _ _ _ grown =>
    obtain ⟨-, -, -, hnext, hbools, -⟩ := IR.Builder.addPhiSource?_eq_some grown
    obtain ⟨-, hframe, hdests, hcompared⟩ := IR.Builder.addPhiSource?_keeps grown
    refine ⟨?_, ?_, hframe.trans h.frame⟩
    · dsimp only [func]
      rw [hdests, hnext]
      exact h.defined
    · dsimp only [func]
      rw [hcompared, hbools]
      exact h.bools
  | _ => exact ⟨h.defined, h.bools, h.frame⟩

theorem Counted.enter {m : Method} {v : Visit} {rest : List Edge} {w : Walk} {code : List Stmt}
    {term : Terminator} (h : Counted m j) (opens : j.walk.Opens c w v code term)
    (how : (∃ e, v.Via e) ∨ v.Begins c.method) :
    Counted m
      { walk := w, pending := v.edges ++ rest, passed := j.passed ++ v.via.toList
        visits := j.visits ++ [v] } := by
  have hfirst : v.first = j.func.nextReg := opens.first
  have hnumbered := opens.laid.numbered_phis (Visit.top?_opened how) v.block.pending
  have hnext : w.builder.func.nextReg =
      j.func.nextReg + (dests (v.opened.phis v.block.pending ++ code)).length := by
    rw [opens.nextReg, Visit.next, hfirst, IR.dests_append, List.length_append,
      OperandStack.length_dests_phis, Nat.add_assoc]
  rw [hfirst] at hnumbered
  refine ⟨?_, ?_, opens.frame.trans h.frame⟩
  · dsimp only [func]
    rw [hnext, List.range_add, List.map_append]
    refine (opens.stmts.filterMap Stmt.dest?).trans ?_
    rw [List.filterMap_append]
    refine h.defined.append ?_
    rw [← List.range'_eq_map_range, ← hnumbered]
    exact .refl _
  · dsimp only [func]
    rw [opens.bools]
    refine (h.bools.append_right _).trans ?_
    rw [← List.filterMap_append]
    exact (opens.stmts.filterMap Stmt.boolDest?).symm

theorem Reached.counted (h : j.Reached c x) : Counted c.method j := by
  induction h with
  | init blank => exact .init blank
  | step before hs ih =>
    cases hs with
    | pass _ passes => exact ih.pass passes
    | enter _ opens how => exact ih.enter opens (how.imp_right fun hfirst => hfirst.2.2.2)

theorem Counted.nodup {m : Method} (h : Counted m j) : (dests j.func.stmts).Nodup := by
  refine h.defined.nodup_iff.mpr (List.nodup_range.map ?_)
  exact fun i k hik => congrArg Reg.index hik

theorem Counted.mem_dests {m : Method} (h : Counted m j) {r : Reg} :
    r ∈ dests j.func.stmts ↔ r.index < j.func.nextReg := by
  rw [h.defined.mem_iff, List.mem_map]
  constructor
  · rintro ⟨i, hi, rfl⟩
    exact List.mem_range.mp hi
  · exact fun hlt => ⟨r.index, List.mem_range.mpr hlt, rfl⟩

/-- A register is defined once if it is in use, else not at all. -/
theorem Counted.countP_dest {m : Method} (h : Counted m j) (r : Reg) :
    j.func.stmts.countP (·.dest? = some r) = if r.index < j.func.nextReg then 1 else 0 := by
  have hcount : j.func.stmts.countP (·.dest? = some r) = (dests j.func.stmts).count r := by
    rw [dests, List.count_filterMap]
    exact List.countP_congr fun s _ => by simp
  rw [hcount, h.nodup.count]
  exact if_congr h.mem_dests rfl rfl

/-- A register has the type of the statement that defines it. -/
theorem Counted.typed {m : Method} (h : Counted m j) {s : Stmt} (hs : s ∈ j.func.stmts) {r : Reg}
    (hr : s.dest? = some r) : j.func.Typed s.type r := by
  refine ⟨h.mem_dests.mp (List.mem_filterMap.mpr ⟨s, hs, hr⟩), ?_⟩
  have hbools : r ∈ j.func.bools ↔ s.type = .bool := by
    rw [h.bools.mem_iff, List.mem_filterMap]
    constructor
    · rintro ⟨t, ht, hcompared⟩
      obtain ⟨htr, htype⟩ := IR.Stmt.boolDest?_eq_some_iff.mp hcompared
      rw [IR.eq_of_dest h.nodup hs ht hr htr]
      exact htype
    · exact fun htype => ⟨s, hs, IR.Stmt.boolDest?_eq_some_iff.mpr ⟨hr, htype⟩⟩
  exact Func.regType_eq hbools

theorem Counted.noted {m : Method} (h : Counted m j) : j.func.Noted := by
  intro r hr
  obtain ⟨s, hs, hcompared⟩ := List.mem_filterMap.mp (h.bools.mem_iff.mp hr)
  exact h.mem_dests.mp (List.mem_filterMap.mpr ⟨s, hs, (IR.Stmt.boolDest?_eq_some_iff.mp hcompared).1⟩)

end Journal

end StackFlow
