import Mathlib.Tactic.Tauto
import StackFlow.Proofs.Code.Paths
import StackFlow.Compile.Walk
import StackFlow.Proofs.Lowering.Emit

/-!
What the standard lowering makes of an instruction that transfers no control: all that it can do is
said once (`Straight`), and of a list of instructions by composition (`Straights`). Main statements:
the lowering does nothing else (`straight_of_run`, `straights_of_lowerAll`).
-/
namespace StackFlow

open IR (Reg Stmt Builder dests Numbered)

/-- The instruction, with the first free register `n` and the given registers on the stack, top
first, turns into the code and leaves the registers after it. The guards are what a stack of at most
`max` values asks for. -/
inductive Straight (x : ExternTable) (max : Nat) (i : Instr) (n : Nat) :
    List Reg → List Stmt → List Reg → Prop
  | skip {s : List Reg} (op : i.opcode = .nop ∨ i.opcode = .trace) : Straight x max i n s [] s
  | const {s : List Reg} {w : Word} (op : i.constant? = some w) (room : s.length < max) :
      Straight x max i n s [.const ⟨n⟩ w] (⟨n⟩ :: s)
  | receiver {s : List Reg} (op : i.opcode = .putSelf) (room : s.length < max) :
      Straight x max i n s [.receiver ⟨n⟩] (⟨n⟩ :: s)
  | load {s : List Reg} (op : i.opcode = .getLocal) (room : s.length < max) :
      Straight x max i n s [.loadLocal ⟨n⟩ (i.word 0).toNat] (⟨n⟩ :: s)
  | store {s : List Reg} {v : Reg} (op : i.opcode = .setLocal) :
      Straight x max i n (v :: s) [.storeLocal (i.word 0).toNat v] s
  | pop {s : List Reg} {v : Reg} (op : i.opcode = .pop) : Straight x max i n (v :: s) [] s
  | dup {s : List Reg} {v : Reg} (op : i.opcode = .dup) (room : s.length + 1 < max) :
      Straight x max i n (v :: s) [] (v :: v :: s)
  | swap {s : List Reg} {v u : Reg} (op : i.opcode = .swap) :
      Straight x max i n (v :: u :: s) [] (u :: v :: s)
  | send {s args : List Reg} {receiver : Reg} {selector : Word}
      (op : i.sends? = some (selector, args.length))
      (known : ∃ e, x.resolve? (ExternTable.funcallName args.length) (args.length + 2) = some e) :
      Straight x max i n (args.reverse ++ receiver :: s)
        [.const ⟨n⟩ selector,
          .call ⟨n + 1⟩ (ExternTable.funcallName args.length) (receiver :: ⟨n⟩ :: args)]
        (⟨n + 1⟩ :: s)

inductive Straights (x : ExternTable) (max : Nat) :
    List Instr → Nat → List Reg → List Stmt → List Reg → Prop
  | nil {n : Nat} {s : List Reg} : Straights x max [] n s [] s
  | cons {i : Instr} {is : List Instr} {n : Nat} {s t u : List Reg} {c d : List Stmt}
      (first : Straight x max i n s c t) (rest : Straights x max is (n + (dests c).length) t d u) :
      Straights x max (i :: is) n s (c ++ d) u

namespace Straight

variable {x : ExternTable} {max n : Nat} {i : Instr} {s t : List Reg} {c : List Stmt}

theorem numbered (h : Straight x max i n s c t) : Numbered n c := by
  cases h <;> rfl

/-- The stack changes in length as the instruction says. -/
theorem length_eq (h : Straight x max i n s c t) :
    i.effect.1 ≤ s.length ∧ t.length + i.effect.1 = s.length + i.effect.2 := by
  cases h with
  | skip op => rcases op with op | op <;> simp [Instr.effect, op, Opcode.effect]
  | const op => simp [Instr.effect_of_constant op]
  | send op => simp [Instr.effect_of_sends op]; omega
  | receiver op => simp [Instr.effect, op, Opcode.effect]
  | load op => simp [Instr.effect, op, Opcode.effect]
  | store op => simp [Instr.effect, op, Opcode.effect]
  | pop op => simp [Instr.effect, op, Opcode.effect]
  | dup op => simp [Instr.effect, op, Opcode.effect]
  | swap op => simp [Instr.effect, op, Opcode.effect]

theorem length_le (h : Straight x max i n s c t) (hs : s.length ≤ max) : t.length ≤ max := by
  cases h with
  | skip => exact hs
  | send =>
    simp only [List.length_cons, List.length_append, List.length_reverse] at hs ⊢
    omega
  | _ =>
    simp only [List.length_cons] at *
    omega

/-- The code holds no phi. -/
theorem isPhi (h : Straight x max i n s c t) : ∀ stmt ∈ c, stmt.isPhi = false := by
  cases h <;> simp [Stmt.isPhi]

/-- What is on the stack was there before or is a result of the code. -/
theorem mem (h : Straight x max i n s c t) {r : Reg} (hr : r ∈ t) : r ∈ s ∨ r ∈ dests c := by
  cases h <;> simp [dests, Stmt.dest?] at hr ⊢ <;> tauto

end Straight

namespace Straights

variable {x : ExternTable} {max n : Nat} {is : List Instr} {s t : List Reg} {c : List Stmt}

theorem numbered (h : Straights x max is n s c t) : Numbered n c := by
  induction h with
  | nil => exact Numbered.nil _
  | cons first _ ih => exact first.numbered.append ih

theorem length_le (h : Straights x max is n s c t) (hs : s.length ≤ max) : t.length ≤ max := by
  induction h with
  | nil => exact hs
  | cons first _ ih => exact ih (first.length_le hs)

theorem isPhi (h : Straights x max is n s c t) : ∀ stmt ∈ c, stmt.isPhi = false := by
  induction h with
  | nil => simp
  | cons first _ ih =>
    intro stmt hm
    rcases List.mem_append.mp hm with hm | hm
    · exact first.isPhi stmt hm
    · exact ih stmt hm

theorem mem (h : Straights x max is n s c t) {r : Reg} (hr : r ∈ t) : r ∈ s ∨ r ∈ dests c := by
  induction h with
  | nil => exact .inl hr
  | cons first _ ih =>
    rw [IR.dests_append, List.mem_append]
    rcases ih hr with hm | hm
    · rcases first.mem hm with hm | hm
      · exact .inl hm
      · exact .inr (.inl hm)
    · exact .inr (.inr hm)

end Straights

namespace Lowering

variable {i : Instr} {s t : OperandStack} {b b' : Builder}

theorem standardStraight_of_constant {w : Word} (h : i.constant? = some w) :
    standardStraight i s = pushStmt (·.const w) s := by
  unfold Instr.constant? at h
  unfold standardStraight
  cases hop : i.opcode <;> rw [hop] at h <;> cases h <;> rfl

theorem standardStraight_of_sends {selector : Word} {count : Nat}
    (h : i.sends? = some (selector, count)) :
    standardStraight i s = send selector count s := by
  unfold Instr.sends? at h
  unfold standardStraight
  cases hop : i.opcode <;> rw [hop] at h <;> cases h <;> rfl

theorem standardStraight_of_transfers (h : i.transfers = true) :
    standardStraight i s = throw (.unsupportedInstruction i.opcode i.position) := by
  unfold Instr.transfers at h
  unfold standardStraight
  cases hop : i.opcode <;> rw [hop] at h <;> first | cases h; done | rfl

theorem pushStmt_eq_ok {f : Builder → Reg × Builder} {stmt : Reg → Stmt}
    (hf : ∀ b : Builder, f b = (b.free, b.append [stmt b.free]))
    (h : (pushStmt f s).run b = .ok (t, b')) :
    s.depth < s.max ∧ t = { s with regs := b.free :: s.regs } ∧ b' = b.append [stmt b.free] := by
  obtain ⟨r, b₁, h₁, ha⟩ := Emit.run_bind_eq_ok h
  obtain ⟨hp, rfl⟩ := Emit.run_lift_eq_ok ha
  have p₁ := Emit.run_stmt_eq_ok h₁
  rw [hf] at p₁
  cases p₁
  exact ⟨(OperandStack.push_eq_ok hp).1, (OperandStack.push_eq_ok hp).2, rfl⟩

theorem send_eq_ok {selector : Word} {count : Nat}
    (h : (send selector count s).run b = .ok (t, b')) :
    ∃ args receiver below, args.length = count ∧ s.regs = args.reverse ++ receiver :: below ∧
      (∃ e, b.externs.resolve? (ExternTable.funcallName count) (count + 2) = some e) ∧
      t = { s with regs := ⟨b.func.nextReg + 1⟩ :: below } ∧
      b' = b.append [.const ⟨b.func.nextReg⟩ selector,
        .call ⟨b.func.nextReg + 1⟩ (ExternTable.funcallName count)
          (receiver :: ⟨b.func.nextReg⟩ :: args)] := by
  obtain ⟨⟨args, s₁⟩, b₁, h₁, ha⟩ := Emit.run_bind_eq_ok h
  obtain ⟨⟨receiver, s₂⟩, b₂, h₂, hb⟩ := Emit.run_bind_eq_ok ha
  obtain ⟨q, b₃, h₃, hc⟩ := Emit.run_bind_eq_ok hb
  obtain ⟨result, b₄, h₄, hd⟩ := Emit.run_bind_eq_ok hc
  obtain ⟨p₁, rfl⟩ := Emit.run_lift_eq_ok h₁
  obtain ⟨p₂, rfl⟩ := Emit.run_lift_eq_ok h₂
  have p₃ := Emit.run_stmt_eq_ok h₃
  rw [Builder.const_eq_append] at p₃
  cases p₃
  obtain ⟨known, rfl, rfl⟩ := Emit.run_call_eq_ok h₄
  obtain ⟨p₅, rfl⟩ := Emit.run_lift_eq_ok hd
  obtain ⟨hlen, rfl⟩ := OperandStack.popN_eq_ok p₁
  obtain rfl := OperandStack.pop_eq_ok p₂
  obtain ⟨-, rfl⟩ := OperandStack.push_eq_ok p₅
  refine ⟨args, receiver, s₂.regs, hlen, rfl, ?_, rfl, ?_⟩
  · simpa [hlen] using known
  · rw [Builder.append_append]
    rfl

theorem straight_of_pushStmt {f : Builder → Reg × Builder} (stmt : Reg → Stmt)
    (hf : ∀ b : Builder, f b = (b.free, b.append [stmt b.free]))
    (h : (pushStmt f s).run b = .ok (t, b'))
    (hs : s.regs.length < s.max →
      Straight b.externs s.max i b.func.nextReg s.regs [stmt b.free] (b.free :: s.regs)) :
    ∃ c, Straight b.externs s.max i b.func.nextReg s.regs c t.regs ∧ t.max = s.max ∧
      b' = b.append c := by
  obtain ⟨room, rfl, rfl⟩ := pushStmt_eq_ok hf h
  exact ⟨_, hs room, rfl, rfl⟩

theorem straight_of_send {selector : Word} {count : Nat}
    (h : (send selector count s).run b = .ok (t, b')) (hs : i.sends? = some (selector, count)) :
    ∃ c, Straight b.externs s.max i b.func.nextReg s.regs c t.regs ∧ t.max = s.max ∧
      b' = b.append c := by
  obtain ⟨args, receiver, below, rfl, hregs, known, rfl, rfl⟩ := send_eq_ok h
  rw [hregs]
  exact ⟨_, .send hs known, rfl, rfl⟩

/-- All that the lowering of an instruction can do. -/
theorem straight_of_run (h : (standardStraight i s).run b = .ok (t, b')) :
    ∃ c, Straight b.externs s.max i b.func.nextReg s.regs c t.regs ∧ t.max = s.max ∧
      b' = b.append c := by
  unfold standardStraight at h
  split at h
  next hop => cases h; exact ⟨[], .skip (.inl hop), rfl, by simp⟩
  next hop => cases h; exact ⟨[], .skip (.inr hop), rfl, by simp⟩
  next hop =>
    exact straight_of_pushStmt (.const · Value.nil.bits) (fun b => b.const_eq_append _) h
      fun room => .const (by simp [Instr.constant?, hop]) room
  next hop =>
    exact straight_of_pushStmt .receiver (fun b => b.receiver_eq_append) h
      fun room => .receiver hop room
  next hop =>
    exact straight_of_pushStmt (.const · (i.word 0)) (fun b => b.const_eq_append _) h
      fun room => .const (by simp [Instr.constant?, hop]) room
  next hop =>
    exact straight_of_pushStmt (.const · (Value.fixnum 0).bits) (fun b => b.const_eq_append _) h
      fun room => .const (by simp [Instr.constant?, hop]) room
  next hop =>
    exact straight_of_pushStmt (.const · (Value.fixnum 1).bits) (fun b => b.const_eq_append _) h
      fun room => .const (by simp [Instr.constant?, hop]) room
  next hop =>
    obtain ⟨⟨v, s₁⟩, b₁, h₁, ha⟩ := Emit.run_bind_eq_ok h
    obtain ⟨p₁, rfl⟩ := Emit.run_lift_eq_ok h₁
    obtain ⟨rfl, rfl⟩ := Emit.run_pure_eq_ok ha
    obtain rfl := OperandStack.pop_eq_ok p₁
    exact ⟨[], .pop hop, rfl, by simp⟩
  next hop =>
    obtain ⟨⟨v, s₁⟩, b₁, h₁, ha⟩ := Emit.run_bind_eq_ok h
    obtain ⟨s₂, b₂, h₂, hb⟩ := Emit.run_bind_eq_ok ha
    obtain ⟨p₁, rfl⟩ := Emit.run_lift_eq_ok h₁
    obtain ⟨p₂, rfl⟩ := Emit.run_lift_eq_ok h₂
    obtain ⟨p₃, rfl⟩ := Emit.run_lift_eq_ok hb
    obtain rfl := OperandStack.pop_eq_ok p₁
    obtain ⟨-, rfl⟩ := OperandStack.push_eq_ok p₂
    obtain ⟨room, rfl⟩ := OperandStack.push_eq_ok p₃
    exact ⟨[], .dup hop room, rfl, by simp⟩
  next hop =>
    obtain ⟨⟨v, s₁⟩, b₁, h₁, ha⟩ := Emit.run_bind_eq_ok h
    obtain ⟨⟨u, s₂⟩, b₂, h₂, hb⟩ := Emit.run_bind_eq_ok ha
    obtain ⟨s₃, b₃, h₃, hc⟩ := Emit.run_bind_eq_ok hb
    obtain ⟨p₁, rfl⟩ := Emit.run_lift_eq_ok h₁
    obtain ⟨p₂, rfl⟩ := Emit.run_lift_eq_ok h₂
    obtain ⟨p₃, rfl⟩ := Emit.run_lift_eq_ok h₃
    obtain ⟨p₄, rfl⟩ := Emit.run_lift_eq_ok hc
    obtain rfl := OperandStack.pop_eq_ok p₁
    obtain rfl := OperandStack.pop_eq_ok p₂
    obtain ⟨-, rfl⟩ := OperandStack.push_eq_ok p₃
    obtain ⟨-, rfl⟩ := OperandStack.push_eq_ok p₄
    exact ⟨[], .swap hop, rfl, by simp⟩
  next hop =>
    exact straight_of_pushStmt (.loadLocal · (i.word 0).toNat) (fun b => b.loadLocal_eq_append _) h
      fun room => .load hop room
  next hop =>
    obtain ⟨⟨v, s₁⟩, b₁, h₁, ha⟩ := Emit.run_bind_eq_ok h
    obtain ⟨u, b₂, h₂, hb⟩ := Emit.run_bind_eq_ok ha
    obtain ⟨p₁, rfl⟩ := Emit.run_lift_eq_ok h₁
    obtain ⟨rfl, rfl⟩ := Emit.run_pure_eq_ok hb
    cases h₂
    obtain rfl := OperandStack.pop_eq_ok p₁
    exact ⟨_, .store hop, rfl, Builder.storeLocal_eq_append _ _ _⟩
  next hop => exact straight_of_send h (by simp [Instr.sends?, hop])
  next =>
    split at h
    next selector hsel =>
      refine straight_of_send h ?_
      unfold Instr.sends?
      cases hop : i.opcode <;> simp_all [Opcode.selector?]
    next => cases h

end Lowering

theorem Compiler.result_lower (c : Compiler) (t : BlockTable) (i : Instr) (s : OperandStack) (b : Builder) :
    (c.lower t i s b).result = (c.lowering.straight i s).run b := by
  unfold Compiler.lower
  split
  next _ lowered => rw [lowered]; rfl
  next _ failed => rw [failed]

/-- All that the lowering of the straight part of a block can do. -/
theorem Compiler.straights_of_lowerAll {c : Compiler} (standard : c.lowering = .standard)
    {table : BlockTable} {is : List Instr} {s t : OperandStack} {b b' : Builder}
    (h : (c.lowerAll table is s b).result = .ok (t, b')) :
    ∃ code, Straights b.externs s.max is b.func.nextReg s.regs code t.regs ∧ t.max = s.max ∧
      b' = b.append code := by
  induction is generalizing s b with
  | nil => cases h; exact ⟨[], .nil, rfl, by simp⟩
  | cons i is ih =>
    obtain ⟨_, -, h₁⟩ := Traced.result_bind_eq_ok h
    obtain ⟨⟨s₁, b₁⟩, h₂, h₃⟩ := Traced.result_bind_eq_ok h₁
    rw [Compiler.result_lower, standard] at h₂
    obtain ⟨first, hfirst, hmax, rfl⟩ := Lowering.straight_of_run h₂
    obtain ⟨rest, hrest, hmax', rfl⟩ := ih h₃
    rw [hmax] at hrest
    exact ⟨first ++ rest, .cons hfirst hrest, hmax'.trans hmax, by simp⟩

end StackFlow
