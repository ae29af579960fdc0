import StackFlow.Proofs.Code.Faults
import StackFlow.Proofs.Lowering.Ending

/-!
How lowering fails: at an instruction that cannot be lowered, after those before it were
(`Compiler.exists_run_of_lowerAll`), and only one that has the fault which is reported
(`Lowering.faults_of_run`, `Compiler.faults_of_transfer`, together `Compiler.Refuses.faults`).
-/
namespace StackFlow

open IR (Reg Stmt Builder BlockId)

theorem bind_eq_error {ε α β : Type} {x : Except ε α} {f : α → Except ε β} {e : ε}
    (h : (x >>= f) = .error e) : x = .error e ∨ ∃ a, x = .ok a ∧ f a = .error e := by
  cases x with
  | error e' => cases h; exact .inl rfl
  | ok a => exact .inr ⟨a, rfl, h⟩

theorem Traced.result_bind_eq_error {ε α β : Type} {x : Traced ε α} {f : α → Traced ε β} {e : ε}
    (h : (x >>= f).result = .error e) :
    x.result = .error e ∨ ∃ a, x.result = .ok a ∧ (f a).result = .error e := by
  rw [Traced.result_bind] at h
  exact bind_eq_error h

namespace OperandStack

variable {s : OperandStack} {e : CompileError}

theorem push_eq_error {r : Reg} (h : s.push r = .error e) :
    s.max ≤ s.depth ∧ e = .stackOverflow s.max (s.depth + 1) := by
  unfold push at h
  split at h
  next full => cases h; exact ⟨full, rfl⟩
  next => cases h

theorem pop_eq_error (h : s.pop = .error e) :
    s.depth = 0 ∧ ∃ next, e = .stackUnderflow next := by
  unfold pop at h
  unfold depth
  split at h
  next hs => cases h; exact ⟨by rw [hs]; rfl, _, rfl⟩
  next => cases h

theorem popN_eq_error {n : Nat} (h : s.popN n = .error e) :
    s.depth < n ∧ ∃ next, e = .stackUnderflow next := by
  unfold popN at h
  split at h
  next short => cases h; exact ⟨short, _, rfl⟩
  next => cases h

end OperandStack

namespace Emit

variable {α β : Type} {b : Builder} {e : CompileError}

theorem run_bind_eq_error {x : Emit α} {f : α → Emit β} (h : (x >>= f).run b = .error e) :
    x.run b = .error e ∨ ∃ a b₁, x.run b = .ok (a, b₁) ∧ (f a).run b₁ = .error e := by
  rw [StateT.run_bind] at h
  rcases bind_eq_error h with hx | ⟨p, hp, hf⟩
  · exact .inl hx
  · exact .inr ⟨p.1, p.2, hp, hf⟩

theorem run_lift_eq_error {x : Except CompileError α} (h : (liftM x : Emit α).run b = .error e) :
    x = .error e := by
  cases x with
  | error e' => cases h; rfl
  | ok a => cases h

theorem run_stmt_ne_error {f : Builder → Reg × Builder} : (stmt f).run b ≠ .error e := nofun

theorem run_call_eq_error {callee : String} {args : List Reg}
    (h : (call callee args).run b = .error e) :
    e = .unresolvedExternal callee ∧ b.externs.resolve? callee args.length = none := by
  have hcall : call callee args b = .error e := h
  unfold call at hcall
  split at hcall
  next => cases hcall
  next hnone =>
    cases hcall
    exact ⟨rfl, by simpa [Builder.call?] using hnone⟩

end Emit

namespace Lowering

variable {i : Instr} {s : OperandStack} {b : Builder} {e : CompileError}

theorem faults_of_pop {x : ExternTable} (takes : 0 < i.effect.1) (h : s.pop = .error e) :
    i.Faults x s.max s.depth e := by
  obtain ⟨hnone, next, rfl⟩ := OperandStack.pop_eq_error h
  exact .underflow (by rw [hnone]; exact takes)

theorem faults_of_pushStmt {f : Builder → Reg × Builder} (bounded : s.depth ≤ s.max)
    (effect : i.effect = (0, 1)) (h : (pushStmt f s).run b = .error e) :
    i.Faults b.externs s.max s.depth e := by
  rcases Emit.run_bind_eq_error h with h₁ | ⟨r, b₁, -, h₂⟩
  · exact absurd h₁ Emit.run_stmt_ne_error
  · obtain ⟨full, rfl⟩ := OperandStack.push_eq_error (Emit.run_lift_eq_error h₂)
    have hdepth : s.depth = s.max := Nat.le_antisymm bounded full
    rw [hdepth]
    exact .overflow (by rw [effect]; exact Nat.zero_le _) (by rw [effect]; exact Nat.lt_succ_self _)

/-- Pushing the result of a send does not fail, as it comes in place of the receiver. -/
theorem faults_of_send {selector : Word} {count : Nat} (bounded : s.depth ≤ s.max)
    (sends : i.sends? = some (selector, count)) (h : (send selector count s).run b = .error e) :
    i.Faults b.externs s.max s.depth e := by
  have effect := Instr.effect_of_sends sends
  rcases Emit.run_bind_eq_error h with h₁ | ⟨⟨args, s₁⟩, b₁, h₁, ha⟩
  · obtain ⟨short, next, rfl⟩ := OperandStack.popN_eq_error (Emit.run_lift_eq_error h₁)
    exact .underflow (by rw [effect]; exact Nat.lt_succ_of_lt short)
  obtain ⟨p₁, rfl⟩ := Emit.run_lift_eq_ok h₁
  obtain ⟨hlen, rfl⟩ := OperandStack.popN_eq_ok p₁
  rcases Emit.run_bind_eq_error ha with h₂ | ⟨⟨receiver, s₂⟩, b₂, h₂, hb⟩
  · obtain ⟨hnone, next, rfl⟩ := OperandStack.pop_eq_error (Emit.run_lift_eq_error h₂)
    refine .underflow ?_
    rw [effect]
    unfold OperandStack.depth at hnone ⊢
    rw [List.length_append, List.length_reverse]
    omega
  obtain ⟨p₂, rfl⟩ := Emit.run_lift_eq_ok h₂
  obtain rfl := OperandStack.pop_eq_ok p₂
  rcases Emit.run_bind_eq_error hb with h₃ | ⟨q, b₃, h₃, hc⟩
  · exact absurd h₃ Emit.run_stmt_ne_error
  have p₃ := Emit.run_stmt_eq_ok h₃
  rw [Builder.const_eq_append] at p₃
  cases p₃
  rcases Emit.run_bind_eq_error hc with h₄ | ⟨result, b₄, -, hd⟩
  · obtain ⟨rfl, absent⟩ := Emit.run_call_eq_error h₄
    refine .unresolved (Instr.calls?_of_sends sends) ?_
    simpa [hlen] using absent
  · obtain ⟨full, -⟩ := OperandStack.push_eq_error (Emit.run_lift_eq_error hd)
    have hfull : s₂.max ≤ s₂.regs.length := full
    have hroom : (args.reverse ++ receiver :: s₂.regs).length ≤ s₂.max := bounded
    rw [List.length_append, List.length_cons] at hroom
    omega

/-- Lowering an instruction fails only where it has a fault. -/
theorem faults_of_run (plain : i.opcode.control = none) (bounded : s.depth ≤ s.max)
    (h : (standardStraight i s).run b = .error e) : i.Faults b.externs s.max s.depth e := by
  have taken {r : Reg} {t : OperandStack} (hpop : s.pop = .ok (r, t)) :
      s.depth = t.depth + 1 ∧ s.max = t.max := by
    rw [OperandStack.pop_eq_ok hpop]
    exact ⟨rfl, rfl⟩
  unfold standardStraight at h
  split at h
  next => cases h
  next => cases h
  next op => exact faults_of_pushStmt bounded (by simp [Instr.effect, op, Opcode.effect]) h
  next op => exact faults_of_pushStmt bounded (by simp [Instr.effect, op, Opcode.effect]) h
  next op => exact faults_of_pushStmt bounded (by simp [Instr.effect, op, Opcode.effect]) h
  next op => exact faults_of_pushStmt bounded (by simp [Instr.effect, op, Opcode.effect]) h
  next op => exact faults_of_pushStmt bounded (by simp [Instr.effect, op, Opcode.effect]) h
  next op =>
    have effect : i.effect = (1, 0) := by simp [Instr.effect, op, Opcode.effect]
    rcases Emit.run_bind_eq_error h with h₁ | ⟨p, b₁, -, ha⟩
    · exact faults_of_pop (by rw [effect]; exact Nat.one_pos) (Emit.run_lift_eq_error h₁)
    · cases ha
  next op =>
    have effect : i.effect = (1, 2) := by simp [Instr.effect, op, Opcode.effect]
    rcases Emit.run_bind_eq_error h with h₁ | ⟨⟨v, s₁⟩, b₁, h₁, ha⟩
    · exact faults_of_pop (by rw [effect]; exact Nat.one_pos) (Emit.run_lift_eq_error h₁)
    obtain ⟨p₁, rfl⟩ := Emit.run_lift_eq_ok h₁
    obtain ⟨hdepth, hmax⟩ := taken p₁
    rcases Emit.run_bind_eq_error ha with h₂ | ⟨s₂, b₂, h₂, hb⟩
    · -- the value goes back to where it was taken from
      obtain ⟨full, -⟩ := OperandStack.push_eq_error (Emit.run_lift_eq_error h₂)
      omega
    obtain ⟨p₂, rfl⟩ := Emit.run_lift_eq_ok h₂
    obtain ⟨-, rfl⟩ := OperandStack.push_eq_ok p₂
    obtain ⟨full, rfl⟩ := OperandStack.push_eq_error (Emit.run_lift_eq_error hb)
    have hfull : s₁.max ≤ s₁.depth + 1 := full
    have hsame : s.depth = s.max := by omega
    have hnext : CompileError.stackOverflow s₁.max (s₁.depth + 1 + 1) =
        .stackOverflow s.max (s.max + 1) := by
      rw [← hdepth, ← hmax, hsame]
    refine (congrArg _ hnext).mpr (.overflow ?_ ?_)
    · rw [effect]
      omega
    · rw [effect]
      omega
  next op =>
    have effect : i.effect = (2, 2) := by simp [Instr.effect, op, Opcode.effect]
    rcases Emit.run_bind_eq_error h with h₁ | ⟨⟨v, s₁⟩, b₁, h₁, ha⟩
    · exact faults_of_pop (by rw [effect]; exact Nat.two_pos) (Emit.run_lift_eq_error h₁)
    obtain ⟨p₁, rfl⟩ := Emit.run_lift_eq_ok h₁
    obtain ⟨hdepth, hmax⟩ := taken p₁
    rcases Emit.run_bind_eq_error ha with h₂ | ⟨⟨u, s₂⟩, b₂, h₂, hb⟩
    · obtain ⟨hnone, next, rfl⟩ := OperandStack.pop_eq_error (Emit.run_lift_eq_error h₂)
      exact .underflow (by rw [effect, hdepth, hnone]; exact Nat.one_lt_two)
    obtain ⟨p₂, rfl⟩ := Emit.run_lift_eq_ok h₂
    obtain rfl := OperandStack.pop_eq_ok p₂
    have hdepth₂ : s.depth = s₂.depth + 2 := hdepth
    have hmax₂ : s.max = s₂.max := hmax
    -- two values go back to where two were taken from
    rcases Emit.run_bind_eq_error hb with h₃ | ⟨s₃, b₃, h₃, hc⟩
    · obtain ⟨full, -⟩ := OperandStack.push_eq_error (Emit.run_lift_eq_error h₃)
      omega
    · obtain ⟨p₃, rfl⟩ := Emit.run_lift_eq_ok h₃
      obtain ⟨-, rfl⟩ := OperandStack.push_eq_ok p₃
      obtain ⟨full, -⟩ := OperandStack.push_eq_error (Emit.run_lift_eq_error hc)
      have hfull : s₂.max ≤ s₂.depth + 1 := full
      omega
  next op => exact faults_of_pushStmt bounded (by simp [Instr.effect, op, Opcode.effect]) h
  next op =>
    have effect : i.effect = (1, 0) := by simp [Instr.effect, op, Opcode.effect]
    rcases Emit.run_bind_eq_error h with h₁ | ⟨⟨v, s₁⟩, b₁, -, ha⟩
    · exact faults_of_pop (by rw [effect]; exact Nat.one_pos) (Emit.run_lift_eq_error h₁)
    · cases ha
  next op => exact faults_of_send bounded (by simp [Instr.sends?, op]) h
  next =>
    split at h
    next selector hsel =>
      refine faults_of_send bounded ?_ h
      unfold Instr.sends?
      cases hop : i.opcode <;> simp_all [Opcode.selector?]
    next hsel =>
      cases h
      refine .unsupported ?_
      cases hop : i.opcode <;> simp_all [Opcode.selector?, Opcode.control]

end Lowering

namespace Compiler

variable {c : Compiler} {t : BlockTable} {d : Draft} {e : CompileError}

/-- Lowering the straight part of a block fails at the first instruction whose lowering fails. -/
theorem exists_run_of_lowerAll (standard : c.lowering = .standard) {is : List Instr}
    {s : OperandStack} {b : Builder} (h : (c.lowerAll t is s b).result = .error e) :
    ∃ before i after code s' b', is = before ++ i :: after ∧
      Straights b.externs s.max before b.func.nextReg s.regs code s'.regs ∧ s'.max = s.max ∧
      b'.externs = b.externs ∧ (Lowering.standardStraight i s').run b' = .error e := by
  induction is generalizing s b with
  | nil => cases h
  | cons i is ih =>
    rcases Traced.result_bind_eq_error h with h₁ | ⟨_, -, h₁⟩
    · cases h₁
    rcases Traced.result_bind_eq_error h₁ with h₂ | ⟨⟨s₁, b₁⟩, h₂, h₃⟩
    · rw [result_lower, standard] at h₂
      exact ⟨[], i, is, [], s, b, rfl, .nil, rfl, rfl, h₂⟩
    · rw [result_lower, standard] at h₂
      obtain ⟨first, hfirst, hmax, rfl⟩ := Lowering.straight_of_run h₂
      obtain ⟨before, k, after, code, s', b', rfl, hbefore, hmax', hexterns, hfails⟩ := ih h₃
      rw [hmax] at hbefore
      exact ⟨i :: before, k, after, first ++ code, s', b', rfl, .cons hfirst hbefore,
        hmax'.trans hmax, hexterns, hfails⟩

end Compiler

namespace BlockTable.Divides

variable {t : BlockTable} {m : Method}

theorem handle_ne_error (h : t.Divides m) {p source : Nat} {e : CompileError}
    (hp : p ∈ m.blockStarts) : t.handle p source ≠ .error e := by
  obtain ⟨b, -, -, hb⟩ := h.exists_block hp
  unfold handle
  rw [hb]
  nofun

end BlockTable.Divides

theorem Draft.emit_eq_error {α : Type} {d : Draft} {f : Emit α} {e : CompileError}
    (h : d.emit f = .error e) : f.run d.builder = .error e := by
  unfold emit at h
  cases hf : f.run d.builder with
  | error e' => rw [hf] at h; cases h; rfl
  | ok p => rw [hf] at h; cases h

namespace Compiler

variable {c : Compiler} {t : BlockTable} {d : Draft} {e : CompileError}

theorem destination_ne_error {m : Method} {i : Instr} (hi : i ∈ m.instrs)
    (op : i.opcode.layout = some [.offset]) : i.destination ≠ .error e := by
  obtain ⟨dest, hdest, -⟩ := Method.exists_jumpTarget? hi op
  unfold Instr.destination
  rw [hdest]
  nofun

theorem destination_mem_blockStarts {m : Method} {i : Instr} (hi : i ∈ m.instrs)
    (op : i.opcode.layout = some [.offset]) {dest : Nat} (h : i.destination = .ok dest) :
    dest ∈ m.blockStarts := by
  obtain ⟨dest', hdest, hmem⟩ := Method.exists_jumpTarget? hi op
  rw [Instr.destination_eq_ok h] at hdest
  cases hdest
  exact Method.startsBlock_of_target hi hmem

theorem nextBlock_ne_error (divides : t.Divides c.method) {i : Instr} (hi : i ∈ c.method.instrs)
    (transfers : i.transfers = true) : c.nextBlock t i d ≠ .error e := by
  unfold nextBlock
  split
  next inside =>
    have hstart := Method.startsBlock_of_transfers hi transfers inside
    cases hh : t.handle i.next i.position with
    | ok handle => nofun
    | error e' => exact absurd hh (divides.handle_ne_error hstart)
  next => nofun

private theorem mapM_handle_ne_error (divides : t.Divides c.method) {position : Nat}
    {cases : List (Value × Nat)} (starts : ∀ p ∈ cases.map Prod.snd, p ∈ c.method.blockStarts) :
    (cases.mapM fun (k, dest) => (t.handle dest position).map fun handle => (k.bits, handle)) ≠
      .error e := by
  induction cases with
  | nil => nofun
  | cons p rest ih =>
    intro h
    rw [List.mapM_cons] at h
    rcases bind_eq_error h with h₁ | ⟨target, -, ha⟩
    · cases hh : t.handle p.2 position with
      | error e' => exact divides.handle_ne_error (starts p.2 (by simp)) hh
      | ok handle =>
        dsimp only at h₁
        rw [hh] at h₁
        cases h₁
    · rcases bind_eq_error ha with h₂ | ⟨more, -, hb⟩
      · exact ih (fun q hq => starts q (List.mem_cons_of_mem _ hq)) h₂
      · cases hb

/-- Ending a block with its transfer fails only where the transfer has a fault. -/
theorem faults_of_transfer (standard : c.lowering = .standard) (divides : t.Divides c.method)
    {i : Instr} (hi : i ∈ c.method.instrs) {control : Control}
    (transfers : i.opcode.control = some control) {s : OperandStack}
    (h : c.transfer t i s d control = .error e) :
    i.Faults d.builder.externs s.max s.depth e := by
  have effect := Instr.effect_of_control transfers
  have htransfers : i.transfers = true := by simp [Instr.transfers, transfers]
  unfold transfer at h
  cases control with
  | jump =>
    have op := Opcode.layout_of_offset (.inl transfers)
    rcases bind_eq_error h with h₁ | ⟨dest, h₁, ha⟩
    · exact absurd h₁ (destination_ne_error hi op)
    · rcases bind_eq_error ha with h₂ | ⟨target, -, hb⟩
      · exact absurd h₂ (divides.handle_ne_error (destination_mem_blockStarts hi op h₁))
      · cases hb
  | branch kind =>
    have op := Opcode.layout_of_offset (.inr ⟨kind, transfers⟩)
    rcases bind_eq_error h with h₁ | ⟨⟨v, s₁⟩, -, ha⟩
    · exact Lowering.faults_of_pop (by rw [effect]; exact Nat.one_pos) h₁
    rcases bind_eq_error ha with h₂ | ⟨⟨cond, d₁⟩, -, hb⟩
    · rw [standard] at h₂
      cases kind <;> contradiction
    rcases bind_eq_error hb with h₃ | ⟨dest, h₃, hc⟩
    · exact absurd h₃ (destination_ne_error hi op)
    rcases bind_eq_error hc with h₄ | ⟨thenTo, -, hd⟩
    · exact absurd h₄ (divides.handle_ne_error (destination_mem_blockStarts hi op h₃))
    rcases bind_eq_error hd with h₅ | ⟨p, -, he⟩
    · exact absurd h₅ (nextBlock_ne_error divides hi htransfers)
    · cases he
  | dispatch =>
    have op := Opcode.eq_caseDispatch_of_control transfers
    obtain ⟨cases, other, htable, hmem⟩ := Method.exists_dispatchTable? hi op
    have starts : ∀ p ∈ other :: cases.map Prod.snd, p ∈ c.method.blockStarts :=
      fun p hp => Method.startsBlock_of_target hi (hmem p hp)
    rcases bind_eq_error h with h₁ | ⟨⟨key, s₁⟩, -, ha⟩
    · exact Lowering.faults_of_pop (by rw [effect]; exact Nat.one_pos) h₁
    dsimp only at ha
    rw [htable] at ha
    rcases bind_eq_error ha with h₂ | ⟨targets, -, hb⟩
    · exact absurd h₂ (mapM_handle_ne_error divides fun p hp => starts p (List.mem_cons_of_mem _ hp))
    rcases bind_eq_error hb with h₃ | ⟨otherTo, -, hc⟩
    · exact absurd h₃ (divides.handle_ne_error (starts other List.mem_cons_self))
    · cases hc
  | exit kind =>
    dsimp only at h
    split at h
    next hdepth => cases h; exact .exit transfers hdepth
    next hdepth =>
      have hone : s.depth = 1 := not_not.mp hdepth
      rcases bind_eq_error h with h₁ | ⟨⟨v, s₁⟩, -, ha⟩
      · have := (OperandStack.pop_eq_error h₁).1
        omega
      rcases bind_eq_error ha with h₂ | ⟨p, -, hb⟩
      · have hrun := Draft.emit_eq_error h₂
        rw [standard] at hrun
        cases kind with
        | leave => cases hrun
        | throw =>
          rcases Emit.run_bind_eq_error hrun with h₃ | ⟨state, b₁, h₃, hc⟩
          · exact absurd h₃ Emit.run_stmt_ne_error
          have p₃ := Emit.run_stmt_eq_ok h₃
          rw [Builder.const_eq_append] at p₃
          cases p₃
          obtain ⟨rfl, absent⟩ := Emit.run_call_eq_error hc
          have op := Opcode.eq_throw_of_control transfers
          have calls : i.calls? = some (ExternTable.throwName, 2) := by simp [Instr.calls?, op]
          exact .unresolved calls absent
      · cases hb

/-- The lowering of the instruction fails with this stack, or ending a block with it does. -/
inductive Refuses (c : Compiler) (x : ExternTable) (i : Instr) (s : OperandStack)
    (e : CompileError) : Prop
  | straight {b : Builder} (plain : i.opcode.control = none) (externs : b.externs = x)
      (fails : (Lowering.standardStraight i s).run b = .error e) : Refuses c x i s e
  | transfer {t : BlockTable} {d : Draft} {control : Control} (divides : t.Divides c.method)
      (transfers : i.opcode.control = some control) (externs : d.builder.externs = x)
      (fails : c.transfer t i s d control = .error e) : Refuses c x i s e

theorem Refuses.faults {x : ExternTable} {i : Instr} {s : OperandStack} (h : c.Refuses x i s e)
    (standard : c.lowering = .standard) (hi : i ∈ c.method.instrs) (bounded : s.depth ≤ s.max) :
    i.Faults x s.max s.depth e := by
  cases h with
  | straight plain externs fails =>
    rw [← externs]
    exact Lowering.faults_of_run plain bounded fails
  | transfer divides transfers externs fails =>
    rw [← externs]
    exact faults_of_transfer standard divides hi transfers fails

end Compiler

end StackFlow
