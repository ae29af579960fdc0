import StackFlow.Compile.Lowering
import StackFlow.Proofs.IR.Append

/-!
Parts of a lowering that succeeded, taken apart: what each step has given, and what the operand stack
was before and after it.
-/
namespace StackFlow

open IR (Reg Stmt Builder)

theorem bind_eq_ok {ε α β : Type} {x : Except ε α} {f : α → Except ε β} {r : β}
    (h : (x >>= f) = .ok r) : ∃ a, x = .ok a ∧ f a = .ok r := by
  cases x with
  | error e => cases h
  | ok a => exact ⟨a, rfl, h⟩

namespace Emit

variable {α β : Type}

theorem run_bind_eq_ok {x : Emit α} {f : α → Emit β} {b b' : Builder} {r : β}
    (h : (x >>= f).run b = .ok (r, b')) :
    ∃ a b₁, x.run b = .ok (a, b₁) ∧ (f a).run b₁ = .ok (r, b') := by
  rw [StateT.run_bind] at h
  obtain ⟨p, hp, hf⟩ := bind_eq_ok h
  exact ⟨p.1, p.2, hp, hf⟩

theorem run_lift_eq_ok {x : Except CompileError α} {b b' : Builder} {a : α}
    (h : (liftM x : Emit α).run b = .ok (a, b')) : x = .ok a ∧ b' = b := by
  cases x with
  | error e => cases h
  | ok y => cases h; exact ⟨rfl, rfl⟩

theorem run_pure_eq_ok {b b' : Builder} {a c : α} (h : (pure c : Emit α).run b = .ok (a, b')) :
    a = c ∧ b' = b := by
  cases h; exact ⟨rfl, rfl⟩

theorem run_stmt_eq_ok {f : Builder → Reg × Builder} {b b' : Builder} {r : Reg}
    (h : (stmt f).run b = .ok (r, b')) : f b = (r, b') :=
  Except.ok.inj h

theorem run_call_eq_ok {callee : String} {args : List Reg} {b b' : Builder} {r : Reg}
    (h : (call callee args).run b = .ok (r, b')) :
    (∃ e, b.externs.resolve? callee args.length = some e) ∧ r = b.free ∧
      b' = b.append [.call b.free callee args] := by
  have hrun : (call callee args).run b =
      (b.call? callee args).elim (.error (.unresolvedExternal callee)) .ok := by
    show call callee args b = _
    unfold call
    cases b.call? callee args <;> rfl
  rw [hrun] at h
  cases hc : b.call? callee args with
  | none => rw [hc] at h; cases h
  | some result => rw [hc] at h; cases h; exact Builder.call?_eq_some hc

end Emit

namespace OperandStack

theorem push_eq_ok {s t : OperandStack} {r : Reg} (h : s.push r = .ok t) :
    s.depth < s.max ∧ t = { s with regs := r :: s.regs } := by
  unfold push at h
  split at h
  · cases h
  · cases h; exact ⟨by omega, rfl⟩

theorem pop_eq_ok {s t : OperandStack} {r : Reg} (h : s.pop = .ok (r, t)) :
    s = { t with regs := r :: t.regs } := by
  unfold pop at h
  split at h
  · cases h
  next q regs hs => cases h; cases s; cases hs; rfl

theorem popN_eq_ok {s t : OperandStack} {n : Nat} {args : List Reg} (h : s.popN n = .ok (args, t)) :
    args.length = n ∧ s = { t with regs := args.reverse ++ t.regs } := by
  unfold popN at h
  split at h
  · cases h
  next hn =>
    cases h
    unfold depth at hn
    refine ⟨by simp; omega, ?_⟩
    simp

end OperandStack

end StackFlow
