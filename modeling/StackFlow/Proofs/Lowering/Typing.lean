import StackFlow.Proofs.IR.WellFormed
import StackFlow.Proofs.Lowering.Ending
import StackFlow.Proofs.Lowering.Prologue

/-!
Types of the registers that lowered code reads: the operand stack holds values only, and the outcome of
a comparison is read by the branch alone that it was made for. Main statements: this passes through the
instructions of a block (`Straights.typed`) to its end (`Ending.typed`), and what the code names is
there (`Straights.refers`, `Ending.refers`).
-/
namespace StackFlow

open IR (Reg Stmt BlockId Func Terminator)

variable {m : Method} {x : ExternTable} {f : Func}

theorem ExternTable.resolve?_eq_some {name : String} {count : Nat} {e : Extern}
    (h : x.resolve? name count = some e) : x.get? name = some e ∧ e.arity = count := by
  unfold resolve? at h
  obtain ⟨found, arity⟩ := Option.filter_eq_some_iff.mp h
  exact ⟨found, by simpa using arity⟩

namespace Straight

variable {max n : Nat} {i : Instr} {s t : List Reg} {c : List Stmt}

/-- If the stack holds values before the instruction, it does so after it. -/
theorem typed (h : Straight x max i n s c t) (hs : ∀ r ∈ s, f.Typed .value r)
    (hc : ∀ stmt ∈ c, ∀ r, stmt.dest? = some r → f.Typed stmt.type r) :
    (∀ stmt ∈ c, ∀ r ∈ stmt.uses, f.Typed .value r) ∧ ∀ r ∈ t, f.Typed .value r := by
  cases h with
  | @send s args receiver selector =>
    have hselector : f.Typed .value ⟨n⟩ := hc _ List.mem_cons_self ⟨n⟩ rfl
    have hresult : f.Typed .value ⟨n + 1⟩ :=
      hc _ (List.mem_cons_of_mem _ (List.mem_singleton_self _)) ⟨n + 1⟩ rfl
    have hargs : ∀ r ∈ receiver :: args, f.Typed .value r := by
      intro r hr
      refine hs r ?_
      rcases List.mem_cons.mp hr with rfl | hr
      · simp
      · simp [hr]
    refine ⟨?_, List.forall_mem_cons.mpr ⟨hresult, fun r hr => hs r (by simp [hr])⟩⟩
    simp only [List.forall_mem_cons, Stmt.uses] at hargs ⊢
    exact ⟨nofun, ⟨hargs.1, hselector, hargs.2⟩, nofun⟩
  | _ => simp_all [Stmt.uses, Stmt.dest?, Stmt.type]

theorem refers (h : Straight x max i n s c t) (hi : i ∈ m.instrs) (hf : f.locals = m.locals) :
    ∀ stmt ∈ c, f.Refers x stmt := by
  cases h with
  | load op => simpa [Func.Refers, hf] using Method.word_lt_locals hi (.inl op)
  | store op => simpa [Func.Refers, hf] using Method.word_lt_locals hi (.inr op)
  | send op known =>
    obtain ⟨e, he⟩ := known
    obtain ⟨found, arity⟩ := ExternTable.resolve?_eq_some he
    simp [Func.Refers, found, arity]
  | _ => simp [Func.Refers]

end Straight

namespace Straights

variable {max n : Nat} {is : List Instr} {s t : List Reg} {c : List Stmt}

theorem typed (h : Straights x max is n s c t) (hs : ∀ r ∈ s, f.Typed .value r)
    (hc : ∀ stmt ∈ c, ∀ r, stmt.dest? = some r → f.Typed stmt.type r) :
    (∀ stmt ∈ c, ∀ r ∈ stmt.uses, f.Typed .value r) ∧ ∀ r ∈ t, f.Typed .value r := by
  induction h with
  | nil => exact ⟨nofun, hs⟩
  | cons first _ ih =>
    obtain ⟨hfirst, hrest⟩ := List.forall_mem_append.mp hc
    obtain ⟨huses, hstack⟩ := first.typed hs hfirst
    obtain ⟨huses', hstack'⟩ := ih hstack hrest
    exact ⟨List.forall_mem_append.mpr ⟨huses, huses'⟩, hstack'⟩

theorem refers (h : Straights x max is n s c t) (his : ∀ i ∈ is, i ∈ m.instrs)
    (hf : f.locals = m.locals) : ∀ stmt ∈ c, f.Refers x stmt := by
  induction h with
  | nil => nofun
  | cons first _ ih =>
    obtain ⟨hi, his⟩ := List.forall_mem_cons.mp his
    exact List.forall_mem_append.mpr ⟨first.refers hi hf, ih his⟩

end Straights

namespace Ending

variable {t : BlockTable} {trap : Option BlockId} {b : BasicBlock} {n : Nat}
  {exit? : Option (Instr × Control)} {s : OperandStack} {code : List Stmt} {term : Terminator}
  {edges : List Edge}

/-- If the stack holds values, the terminator decides on a register of the type that it takes. -/
theorem typed (h : Ending m x t trap b n exit? s code term edges)
    (hm : ∀ p ∈ exit?, p.1 ∈ m.instrs) (hs : ∀ r ∈ s.regs, f.Typed .value r)
    (hc : ∀ stmt ∈ code, ∀ r, stmt.dest? = some r → f.Typed stmt.type r) :
    (∀ stmt ∈ code, ∀ r ∈ stmt.uses, f.Typed .value r) ∧ f.Decides term := by
  cases h with
  | @branch i kind v =>
    have hv := hs v List.mem_cons_self
    cases kind <;>
      simp_all [Lowering.conditionCode, Stmt.uses, Stmt.dest?, Stmt.type, Func.Decides]
  | @dispatch i key s cases other targets otherTo table found =>
    refine ⟨List.forall_mem_nil _, hs key List.mem_cons_self, ?_⟩
    have hkeys := Method.keys_nodup (hm _ rfl) table
    have hwords : targets.map Prod.fst = (cases.map Prod.fst).map Value.bits := by
      clear table hkeys
      induction found with
      | nil => rfl
      | cons hp _ ih => rw [List.map_cons, hp.1, ih]; rfl
    rw [hwords]
    refine hkeys.map fun k k' heq => ?_
    cases k
    cases heq
    rfl
  | leave => exact ⟨List.forall_mem_nil _, hs _ List.mem_cons_self⟩
  | @throw i v =>
    have hv := hs v List.mem_cons_self
    simp_all [Stmt.uses, Stmt.dest?, Stmt.type, Func.Decides]
  | _ => exact ⟨List.forall_mem_nil _, trivial⟩

theorem refers (h : Ending m x t trap b n exit? s code term edges) :
    ∀ stmt ∈ code, f.Refers x stmt := by
  cases h with
  | @branch i kind => cases kind <;> simp [Lowering.conditionCode, Func.Refers]
  | throw known =>
    obtain ⟨e, he⟩ := known
    obtain ⟨found, arity⟩ := ExternTable.resolve?_eq_some he
    simp [Func.Refers, found, arity]
  | _ => exact List.forall_mem_nil _

theorem ne_missing (h : Ending m x t trap b n exit? s code term edges) : term ≠ .missing := by
  cases h <;> nofun

end Ending

namespace Lowering

theorem localsCode_refers (hf : f.frame = (m.params, m.locals)) :
    ∀ s ∈ localsCode m, f.Refers x s := by
  obtain ⟨hparams, hlocals⟩ := Prod.mk.inj hf
  intro s hs
  obtain ⟨i, hi, rfl | rfl | ⟨hp, rfl⟩⟩ := mem_localsCode hs
  · exact Nat.lt_of_lt_of_eq hi hlocals.symm
  · trivial
  · exact Nat.lt_of_lt_of_eq hp hparams.symm

theorem localsCode_typed (hc : ∀ s ∈ localsCode m, ∀ r, s.dest? = some r → f.Typed s.type r) :
    ∀ s ∈ localsCode m, ∀ r ∈ s.uses, f.Typed .value r := by
  intro s hs r hr
  obtain ⟨i, hi, rfl | rfl | ⟨-, rfl⟩⟩ := mem_localsCode hs
  · -- the register that is stored is defined by the statement before
    have hdest : r ∈ IR.dests (localsCode m) := by
      rw [List.mem_singleton.mp hr, dests_localsCode]
      exact List.mem_map_of_mem (List.mem_range.mpr hi)
    obtain ⟨t, ht, htr⟩ := List.mem_filterMap.mp hdest
    have htyped := hc t ht r htr
    obtain ⟨k, -, rfl | rfl | ⟨-, rfl⟩⟩ := mem_localsCode ht
    · cases htr
    · exact htyped
    · exact htyped
  · cases hr
  · cases hr

end Lowering

end StackFlow
