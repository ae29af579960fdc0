import StackFlow.Proofs.Lowering.Emit

/-!
The code at the entry of a function: the prologue sets up the locals and does nothing else
(`locals_of_run`).
-/
namespace StackFlow

open IR (Reg Stmt Builder dests Numbered)

namespace Lowering

/-- Sets up local `i` through the register of the same number. -/
def localCode (m : Method) (i : Nat) : List Stmt :=
  [if i < m.params then .arg ⟨i⟩ i else .const ⟨i⟩ Value.nil.bits, .storeLocal i ⟨i⟩]

def localsCode (m : Method) : List Stmt := (List.range m.locals).flatMap (localCode m)

theorem dests_localCode (m : Method) (i : Nat) : dests (localCode m i) = [⟨i⟩] := by
  unfold localCode
  split <;> rfl

theorem dests_localsCode (m : Method) :
    dests (localsCode m) = (List.range m.locals).map Reg.mk := by
  unfold localsCode
  induction m.locals with
  | zero => rfl
  | succ n ih =>
    rw [List.range_succ, List.flatMap_append, IR.dests_append, ih, List.map_append,
      List.flatMap_singleton, dests_localCode]
    rfl

/-- Each statement sets up one of the locals. -/
theorem mem_localsCode {m : Method} {s : Stmt} (hs : s ∈ localsCode m) :
    ∃ i < m.locals, s = .storeLocal i ⟨i⟩ ∨ s = .const ⟨i⟩ Value.nil.bits ∨
      i < m.params ∧ s = .arg ⟨i⟩ i := by
  obtain ⟨i, hi, hs⟩ := List.mem_flatMap.mp hs
  refine ⟨i, List.mem_range.mp hi, ?_⟩
  unfold localCode at hs
  split at hs
  next param =>
    rcases List.mem_cons.mp hs with rfl | hs
    · exact .inr (.inr ⟨param, rfl⟩)
    · exact .inl (List.mem_singleton.mp hs)
  next =>
    rcases List.mem_cons.mp hs with rfl | hs
    · exact .inr (.inl rfl)
    · exact .inl (List.mem_singleton.mp hs)

theorem localsCode_isPhi (m : Method) : ∀ s ∈ localsCode m, s.isPhi = false := by
  intro s hs
  obtain ⟨i, -, rfl | rfl | ⟨-, rfl⟩⟩ := mem_localsCode hs <;> rfl

theorem localsCode_boolDest? (m : Method) : (localsCode m).filterMap Stmt.boolDest? = [] := by
  rw [List.filterMap_eq_nil_iff]
  intro s hs
  obtain ⟨i, -, rfl | rfl | ⟨-, rfl⟩⟩ := mem_localsCode hs <;> rfl

theorem locals_of_run {m : Method} {b b' : Builder} {u : Unit} (hn : b.func.nextReg = 0)
    (h : (initLocals m).run b = .ok (u, b')) : b' = b.append (localsCode m) := by
  -- the loop from local `k` on finds the first `k` registers taken
  have run : ∀ n k (b b' : Builder), b.func.nextReg = k →
      (forM (List.range' k n) (fun i => do
        let v ← Emit.stmt (if i < m.params then (·.arg i) else (·.value .nil))
        Emit.storeLocal i v) : Emit Unit).run b = .ok (u, b') →
      b' = b.append ((List.range' k n).flatMap (localCode m)) := by
    intro n
    induction n with
    | zero =>
      intro k b b' _ h
      cases h
      simp
    | succ n ih =>
      intro k b b' hk h
      rw [List.range'_succ, List.forM_cons] at h
      obtain ⟨_, b₁, h₁, ha⟩ := Emit.run_bind_eq_ok h
      obtain ⟨v, b₂, h₂, hb⟩ := Emit.run_bind_eq_ok h₁
      have p₂ := Emit.run_stmt_eq_ok h₂
      have hstep : b₁ = b.append (localCode m k) := by
        cases hb
        unfold localCode
        by_cases hp : k < m.params
        · rw [if_pos hp, Builder.arg_eq_append] at p₂
          cases p₂
          dsimp only
          rw [Builder.storeLocal_eq_append, Builder.append_append, if_pos hp, ← hk]
          rfl
        · rw [if_neg hp] at p₂
          simp only [Builder.value, Builder.const_eq_append] at p₂
          cases p₂
          dsimp only
          rw [Builder.storeLocal_eq_append, Builder.append_append, if_neg hp, ← hk]
          rfl
      have hnext : b₁.func.nextReg = k + 1 := by
        rw [hstep, Builder.append_nextReg, dests_localCode, hk]
        rfl
      rw [ih (k + 1) b₁ b' hnext ha, hstep, Builder.append_append, List.range'_succ,
        List.flatMap_cons]
  unfold initLocals at h
  rw [List.forM_eq_forM, List.range_eq_range'] at h
  rw [run m.locals 0 b b' hn h, localsCode, List.range_eq_range']

end Lowering

end StackFlow
