import Mathlib
import StackFlow.Proofs.Walk.Faults

/-!
What an underflow reports. The number is a difference of signed words, and the number of arguments of
a send is any word, so the difference is exact down to `-2 ^ 63` only (`Deficit`). Main statement: a
stack is asked for more values than it has just where that fails, and the number that a compilation
reports is negative unless a send asks for more than `2 ^ 63` values above the depth
(`underflow_exact`).
-/
namespace StackFlow

open IR (Reg Builder)

/-- What is reported where `n` values are asked of a stack of `depth`. -/
structure Deficit (depth n : Nat) (next : Int64) : Prop where
  exact : n ≤ depth + 2 ^ 63 → next.toInt = depth - n
  beyond : depth + 2 ^ 63 < n → next.toInt = depth - n + 2 ^ 64
  negative : next.toInt < 0 ↔ n ≤ depth + 2 ^ 63
  /-- The difference of the two numbers as signed words is out of range, and wraps to the right one. -/
  wraps : depth < 2 ^ 63 →
    ((Int64.ofNat depth).toInt - (Int64.ofNat n).toInt ≠ next.toInt ↔
      2 ^ 63 ≤ n ∧ n ≤ depth + 2 ^ 63)

theorem deficit_sub {depth n : Nat} (short : depth < n) (word : n < 2 ^ 64) :
    Deficit depth n (Int64.ofNat depth - Int64.ofNat n) := by
  have signed (k : Nat) : (Int64.ofNat k).toInt = (k : Int).bmod (2 ^ 64) := Int64.toInt_ofNat'
  have difference : (Int64.ofNat depth - Int64.ofNat n).toInt =
      ((depth : Int) - n).bmod (2 ^ 64) := by
    rw [Int64.toInt_sub, signed, signed, Int.sub_bmod_bmod, Int.bmod_sub_bmod]
  rw [Int.bmod_def] at difference
  refine ⟨fun _ => ?_, fun _ => ?_, ?_, fun fits => ?_⟩
  · omega
  · omega
  · omega
  · rw [signed, signed, Int.bmod_def, Int.bmod_def]
    omega

namespace OperandStack

/-- What comes of asking the stack for `n` values: they are the top ones, the lowest of them first, and
where there are fewer nothing is taken. -/
structure Yields (s : OperandStack) (n : Nat) : Prop where
  fails : (∃ e, s.popN n = .error e) ↔ s.depth < n
  lacks : ∀ e, s.popN n = .error e → ∃ next, e = .stackUnderflow next ∧ Deficit s.depth n next
  takes : ∀ values t, s.popN n = .ok (values, t) → values.length = n ∧
    s.bottomFirst = t.bottomFirst ++ values ∧ values.foldlM push t = .ok s

variable {s t : OperandStack}

/-- Pushing goes on as long as there is room. -/
theorem foldlM_push (values : List Reg) (room : t.depth + values.length ≤ t.max) :
    values.foldlM push t = .ok { t with regs := values.reverse ++ t.regs } := by
  induction values generalizing t with
  | nil => rfl
  | cons r values ih =>
    rw [List.length_cons] at room
    have hpush : t.push r = .ok { t with regs := r :: t.regs } := if_neg (by omega)
    have hroom : (r :: t.regs).length + values.length ≤ t.max := by
      rw [List.length_cons]
      unfold depth at room
      omega
    rw [List.foldlM_cons, hpush]
    refine (ih (t := { t with regs := r :: t.regs }) hroom).trans ?_
    rw [List.reverse_cons, List.append_assoc]
    rfl

theorem yields (s : OperandStack) (n : Word) (bounded : s.depth ≤ s.max) : s.Yields n.toNat where
  fails := by
    unfold popN
    by_cases short : s.depth < n.toNat
    · simp [short]
    · simp [short]
  lacks e h := by
    unfold popN at h
    split at h
    next short => cases h; exact ⟨_, rfl, deficit_sub short n.toNat_lt⟩
    next => cases h
  takes values t h := by
    obtain ⟨hlength, rfl⟩ := popN_eq_ok h
    refine ⟨hlength, by simp [bottomFirst], foldlM_push values ?_⟩
    unfold depth at bounded ⊢
    rw [List.length_append, List.length_reverse] at bounded
    dsimp only at bounded
    omega

end OperandStack

/-- What is reported of an instruction that does not find its operands: a send asks for its arguments
at once, and all else is taken one by one. -/
inductive Instr.Lacks (i : Instr) (depth : Nat) : Int64 → Prop
  | arguments {selector : Word} {n : Nat} {next : Int64} (sends : i.sends? = some (selector, n))
      (short : depth < n) (deficit : Deficit depth n next) : Lacks i depth next
  | single (needs : depth < i.effect.1)
      (given : ∀ selector n, i.sends? = some (selector, n) → n ≤ depth) : Lacks i depth (-1)

theorem Instr.lt_of_sends {i : Instr} {selector : Word} {n : Nat}
    (h : i.sends? = some (selector, n)) : n < 2 ^ 64 := by
  unfold sends? at h
  split at h
  next => cases h; exact (i.word 1).toNat_lt
  next =>
    obtain ⟨_, -, hn⟩ := Option.map_eq_some_iff.mp h
    cases hn
    exact Nat.one_lt_two_pow (by decide)

/-- The number is negative unless a send asks for more values than a signed word can count down. -/
theorem Instr.Lacks.negative_iff {i : Instr} {depth : Nat} {next : Int64} (h : i.Lacks depth next) :
    next.toInt < 0 ↔ ∀ selector n, i.sends? = some (selector, n) → n ≤ depth + 2 ^ 63 := by
  cases h with
  | @arguments selector n next sends _ deficit =>
    rw [deficit.negative, sends]
    constructor
    · rintro hle _ _ ⟨⟩
      exact hle
    · exact fun h => h selector n rfl
  | single _ given =>
    refine iff_of_true (by decide) fun selector n sends => ?_
    exact Nat.le_trans (given selector n sends) (Nat.le_add_right _ _)

namespace Lowering

variable {i : Instr} {s : OperandStack} {b : Builder} {next : Int64}

theorem pop_eq_underflow (h : s.pop = .error (.stackUnderflow next)) : s.depth = 0 ∧ next = -1 := by
  refine ⟨(OperandStack.pop_eq_error h).1, ?_⟩
  unfold OperandStack.pop at h
  split at h <;> cases h
  rfl

theorem push_ne_underflow {r : Reg} : s.push r ≠ .error (.stackUnderflow next) := by
  intro h
  cases (OperandStack.push_eq_error h).2

theorem pushStmt_ne_underflow {f : Builder → Reg × Builder} :
    (pushStmt f s).run b ≠ .error (.stackUnderflow next) := by
  intro h
  rcases Emit.run_bind_eq_error h with h₁ | ⟨r, b₁, -, h₂⟩
  · exact Emit.run_stmt_ne_error h₁
  · exact push_ne_underflow (Emit.run_lift_eq_error h₂)

theorem lacks_of_send {selector : Word} {count : Nat} (sends : i.sends? = some (selector, count))
    (h : (send selector count s).run b = .error (.stackUnderflow next)) : i.Lacks s.depth next := by
  rcases Emit.run_bind_eq_error h with h₁ | ⟨⟨args, s₁⟩, b₁, h₁, ha⟩
  · have hpop := Emit.run_lift_eq_error h₁
    unfold OperandStack.popN at hpop
    split at hpop
    next short => cases hpop; exact .arguments sends short (deficit_sub short (i.lt_of_sends sends))
    next => cases hpop
  obtain ⟨p₁, rfl⟩ := Emit.run_lift_eq_ok h₁
  obtain ⟨hlen, rfl⟩ := OperandStack.popN_eq_ok p₁
  rcases Emit.run_bind_eq_error ha with h₂ | ⟨⟨receiver, s₂⟩, b₂, -, hb⟩
  · obtain ⟨hnone, rfl⟩ := pop_eq_underflow (Emit.run_lift_eq_error h₂)
    have hdepth : (args.reverse ++ s₁.regs).length = count := by
      unfold OperandStack.depth at hnone
      rw [List.length_append, List.length_reverse, hnone, hlen, Nat.add_zero]
    refine .single ?_ fun selector' n sends' => ?_
    · rw [Instr.effect_of_sends sends]
      exact Nat.lt_succ_of_le (Nat.le_of_eq hdepth)
    · rw [sends] at sends'
      cases sends'
      exact Nat.le_of_eq hdepth.symm
  rcases Emit.run_bind_eq_error hb with h₃ | ⟨q, b₃, -, hc⟩
  · exact absurd h₃ Emit.run_stmt_ne_error
  rcases Emit.run_bind_eq_error hc with h₄ | ⟨result, b₄, -, hd⟩
  · cases (Emit.run_call_eq_error h₄).1
  · exact absurd (Emit.run_lift_eq_error hd) push_ne_underflow

theorem underflow_of_pop {α : Type} {f : Reg × OperandStack → Emit α}
    (h : (liftM s.pop >>= f).run b = .error (.stackUnderflow next)) :
    next = -1 ∨ ∃ r t b', (f (r, t)).run b' = .error (.stackUnderflow next) := by
  rcases Emit.run_bind_eq_error h with h₁ | ⟨⟨r, t⟩, b', -, h₂⟩
  · exact .inl (pop_eq_underflow (Emit.run_lift_eq_error h₁)).2
  · exact .inr ⟨r, t, b', h₂⟩

theorem underflow_of_push {r : Reg} {α : Type} {f : OperandStack → Emit α}
    (h : (liftM (s.push r) >>= f).run b = .error (.stackUnderflow next)) :
    ∃ t b', (f t).run b' = .error (.stackUnderflow next) := by
  rcases Emit.run_bind_eq_error h with h₁ | ⟨t, b', -, h₂⟩
  · exact absurd (Emit.run_lift_eq_error h₁) push_ne_underflow
  · exact ⟨t, b', h₂⟩

/-- An instruction that sends nothing takes its operands one by one. -/
theorem next_of_run (plain : i.sends? = none)
    (h : (standardStraight i s).run b = .error (.stackUnderflow next)) : next = -1 := by
  unfold standardStraight at h
  split at h
  next => cases h
  next => cases h
  next => exact absurd h pushStmt_ne_underflow
  next => exact absurd h pushStmt_ne_underflow
  next => exact absurd h pushStmt_ne_underflow
  next => exact absurd h pushStmt_ne_underflow
  next => exact absurd h pushStmt_ne_underflow
  next =>
    rcases underflow_of_pop h with rfl | ⟨v, s₁, b₁, ha⟩
    · rfl
    · cases ha
  next =>
    rcases underflow_of_pop h with rfl | ⟨v, s₁, b₁, ha⟩
    · rfl
    · obtain ⟨s₂, b₂, hb⟩ := underflow_of_push ha
      exact absurd (Emit.run_lift_eq_error hb) push_ne_underflow
  next =>
    rcases underflow_of_pop h with rfl | ⟨v, s₁, b₁, ha⟩
    · rfl
    · rcases underflow_of_pop ha with rfl | ⟨u, s₂, b₂, hb⟩
      · rfl
      · obtain ⟨s₃, b₃, hc⟩ := underflow_of_push hb
        exact absurd (Emit.run_lift_eq_error hc) push_ne_underflow
  next => exact absurd h pushStmt_ne_underflow
  next =>
    rcases underflow_of_pop h with rfl | ⟨v, s₁, b₁, ha⟩
    · rfl
    · cases ha
  next op => simp [Instr.sends?, op] at plain
  next =>
    split at h
    next selector hsel =>
      unfold Instr.sends? at plain
      cases hop : i.opcode <;> rw [hop] at hsel plain <;> cases hsel <;> cases plain
    next => cases h

end Lowering

namespace Compiler

variable {c : Compiler} {x : ExternTable} {next : Int64}

/-- A transfer that does not find its operand is reported like a pop. -/
theorem next_of_transfer {t : BlockTable} {d : Draft} {i : Instr} {s : OperandStack}
    {control : Control} (none : s.depth = 0)
    (h : c.transfer t i s d control = .error (.stackUnderflow next)) : next = -1 := by
  obtain ⟨regs, max⟩ := s
  obtain rfl : regs = [] := List.length_eq_zero_iff.mp none
  unfold transfer at h
  cases control with
  | jump =>
    rcases bind_eq_error h with h₁ | ⟨dest, -, ha⟩
    · unfold Instr.destination at h₁
      split at h₁ <;> cases h₁
    · rcases bind_eq_error ha with h₂ | ⟨target, -, hb⟩
      · unfold BlockTable.handle at h₂
        split at h₂ <;> cases h₂
      · cases hb
  | branch kind => cases h; rfl
  | dispatch => cases h; rfl
  | exit kind => cases h

/-- An instruction is refused for lack of operands only where it lacks them, with the number that
tells how. -/
theorem Refuses.lacks {i : Instr} {s : OperandStack}
    (h : c.Refuses x i s (.stackUnderflow next)) (standard : c.lowering = .standard)
    (hi : i ∈ c.method.instrs) (bounded : s.depth ≤ s.max) : i.Lacks s.depth next := by
  have needs : s.depth < i.effect.1 := by
    cases h.faults standard hi bounded with
    | underflow needs => exact needs
  cases h with
  | straight _ _ fails =>
    cases hsends : i.sends? with
    | some call =>
      rw [Lowering.standardStraight_of_sends hsends] at fails
      exact Lowering.lacks_of_send hsends fails
    | none =>
      rw [Lowering.next_of_run hsends fails]
      exact .single needs fun selector n sends => by rw [hsends] at sends; cases sends
  | transfer _ transfers _ fails =>
    have plain : i.sends? = none := by
      unfold Instr.sends?
      cases hop : i.opcode <;> rw [hop] at transfers <;> first | cases transfers; done | rfl
    have hnone : s.depth = 0 := by
      have effect := congrArg Prod.fst (Instr.effect_of_control transfers)
      dsimp only at effect
      split at effect <;> omega
    rw [next_of_transfer hnone fails]
    exact .single needs fun selector n sends => by rw [plain] at sends; cases sends

theorem Stuck.lacks (h : c.Stuck x (.stackUnderflow next)) (standard : c.lowering = .standard) :
    ∃ (p d : Nat) (i : Instr), c.method.Arrives p d ∧ c.method.instrAt? p = some i ∧
      i.Lacks d next := by
  obtain ⟨p, i, s, path, found, max, room, refuses⟩ := h
  obtain ⟨hi, -⟩ := Method.instrAt?_eq_some_iff.mp found
  exact ⟨p, s.depth, i, path, found, refuses.lacks standard hi (by rw [max]; exact room)⟩

end Compiler

/-- A stack of fewer than `n` values fails to give `n`, and otherwise gives the top ones, which can be
pushed back. What is reported then is the difference of the two numbers down to `-2 ^ 63`, and below
that `2 ^ 64` too much. So a compilation that fails for lack of values, which a path brings too few of
to some instruction, reports a negative number unless that is a send of more than `2 ^ 63` values above
the depth. -/
theorem underflow_exact (s : OperandStack) (n : Word) (bounded : s.depth ≤ s.max) (c : Compiler)
    (x : ExternTable) (standard : c.lowering = .standard) :
    s.Yields n.toNat ∧ ∀ next, (c.compile x).result = .error (.stackUnderflow next) →
      ∃ (p d : Nat) (i : Instr), c.method.Arrives p d ∧ c.method.instrAt? p = some i ∧
        i.Lacks d next ∧
        (next.toInt < 0 ↔ ∀ selector n, i.sends? = some (selector, n) → n ≤ d + 2 ^ 63) := by
  refine ⟨s.yields n bounded, fun next failed => ?_⟩
  rcases Compiler.refused_or_stuck_of_error standard failed with ⟨j, hj, e, -, refused⟩ | stuck
  · cases (hj.disagrees_of_arrive refused).1
  · obtain ⟨p, d, i, path, found, lacks⟩ := stuck.lacks standard
    exact ⟨p, d, i, path, found, lacks, lacks.negative_iff⟩

/-- Asks for more arguments than a signed word can count: `putself; send 43 with 2 ^ 64 - 1; leave`. -/
def overasking : Compiler where
  method :=
    { name := "overasking"
      code := [3, 14, 43, 0xffffffffffffffff, 23]
      stackMax := 3
      params := 0
      locals := 0
      instrs := [⟨0, .putSelf, []⟩, ⟨1, .send, [.value ⟨43⟩, .literal 0xffffffffffffffff]⟩,
        ⟨4, .leave, []⟩]
      verified := by cbv }
  lowering := .standard

/-- Of a stack of one value that is asked for `2 ^ 64 - 1` the number that would be left is reported
as 2, by the stack itself and by the compilation. -/
theorem overasking_reports_two :
    (∀ r, (⟨[r], 3⟩ : OperandStack).popN (2 ^ 64 - 1) = .error (.stackUnderflow 2)) ∧
      (overasking.compile .standard).result = .error (.stackUnderflow 2) ∧
      (2 : Int64).toInt ≠ 1 - (2 ^ 64 - 1) ∧ ¬ (2 : Int64).toInt < 0 := by
  refine ⟨fun r => ?_, ?_, by decide, by decide⟩
  · rfl
  · cbv

theorem overasking_underflow :
    (⟨[⟨0⟩], 3⟩ : OperandStack).Yields (2 ^ 64 - 1) ∧
      (overasking.compile .standard).result = .error (.stackUnderflow 2) ∧
      ∃ (p d : Nat) (i : Instr), overasking.method.Arrives p d ∧
        overasking.method.instrAt? p = some i ∧ i.Lacks d 2 ∧
        ((2 : Int64).toInt < 0 ↔ ∀ selector n, i.sends? = some (selector, n) → n ≤ d + 2 ^ 63) := by
  have failed : (overasking.compile .standard).result = .error (.stackUnderflow 2) := by cbv
  obtain ⟨yields, reported⟩ :=
    underflow_exact ⟨[⟨0⟩], 3⟩ 0xffffffffffffffff (by decide) overasking .standard rfl
  exact ⟨yields, failed, reported 2 failed⟩

end StackFlow
