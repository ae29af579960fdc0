import StackFlow.IR.Link
import StackFlow.Proofs.IR.Append

/-!
What linked code calls. A function without a call of its own name runs with the functions of the host
(`Executable.run_eq`). One that has such a call can be linked only if the host function of that name
takes as many words as a linked function does (`Func.own_of_link`).
-/
namespace StackFlow.IR

/-! ### Calls of the host only -/

theorem Func.callee_ne_of_not_callsItself {f : Func} (foreign : ¬ f.CallsItself) {b : BlockId}
    {d : Reg} {callee : String} {args : List Reg} (hs : .call d callee args ∈ f.code b) :
    callee ≠ f.name := by
  rintro rfl
  have called : (f.name, args.length) ∈ f.calls :=
    List.mem_filterMap.mpr ⟨_, mem_stmts.mpr ⟨b, hs⟩, rfl⟩
  exact foreign (List.mem_map.mpr ⟨_, called, rfl⟩)

namespace Executable

variable {x : Executable} {input : Input}

theorem foldlM_exec {again : Word → Word → Host → Option (Outcome × Host)} (stmts : List Stmt)
    (foreign : ∀ d callee args, .call d callee args ∈ stmts → callee ≠ x.func.name)
    (m : Machine Host) : stmts.foldlM (x.exec (.ofInput input) again) m =
      .ok (stmts.foldl (fun m s => s.exec x.externs.call input m) m) := by
  induction stmts generalizing m with
  | nil => rfl
  | cons s stmts ih =>
    have first : x.exec (.ofInput input) again m s = .ok (s.exec x.externs.call input m) := by
      cases s with
      | call d callee args => exact if_neg (foreign d callee args List.mem_cons_self)
      | _ => rfl
    rw [List.foldlM_cons, first, List.foldl_cons]
    exact ih (fun d callee args hs => foreign d callee args (List.mem_cons_of_mem s hs)) _

theorem runFrom_eq (foreign : ¬ x.func.CallsItself) (memory : Memory) (fuel : Nat) (b : BlockId)
    (m : Machine Host) : x.runFrom memory fuel (.ofInput input) b m =
      x.func.runFrom x.externs.call input fuel b m := by
  induction fuel generalizing b m with
  | zero => rfl
  | succ fuel ih =>
    rw [runFrom, Func.runFrom, foldlM_exec (x.func.block b).stmts fun _ _ _ =>
      Func.callee_ne_of_not_callsItself foreign]
    dsimp only [Func.step]
    split
    next b' hnext => rw [hnext]; exact ih b' _
    next o hnext => rw [hnext]

theorem run_eq (foreign : ¬ x.func.CallsItself) (host : Host) (fuel : Nat) (memory : Memory) :
    x.run input host fuel memory = x.func.run x.externs.call input host fuel :=
  runFrom_eq foreign memory fuel Func.entry _

end Executable

/-! ### Calls of the function itself -/

/-- A fold that succeeds has kept the invariant, and has taken every element from a state with it. -/
theorem forall_of_foldlM_eq_ok {ε α β : Type} {g : β → α → Except ε β} {P : β → Prop}
    {Q : α → Prop} (step : ∀ a b b', P b → g b a = .ok b' → P b' ∧ Q a) {as : List α} {b b' : β}
    (start : P b) (h : as.foldlM g b = .ok b') : P b' ∧ ∀ a ∈ as, Q a := by
  induction as generalizing b with
  | nil => cases h; exact ⟨start, nofun⟩
  | cons a as ih =>
    rw [List.foldlM_cons] at h
    cases ha : g b a with
    | error e => rw [ha] at h; cases h
    | ok b₁ =>
      rw [ha] at h
      obtain ⟨next, here⟩ := step a b b₁ start ha
      obtain ⟨last, later⟩ := ih next h
      exact ⟨last, List.forall_mem_cons.mpr ⟨here, later⟩⟩

namespace Func

variable {f : Func} {t : ExternTable} {known known' : List String}

/-- The host function of the function's name takes as many words as the function. -/
def Own (f : Func) (t : ExternTable) : Prop := ∃ e, t.get? f.name = some e ∧ e.arity = entryArity

theorem own_of_linkStmt {s : Stmt} (before : f.name ∈ known → f.Own t)
    (h : f.linkStmt t known s = .ok known') :
    (f.name ∈ known' → f.Own t) ∧ ∀ n, s.callee? = some (f.name, n) → f.Own t := by
  cases s with
  | call d callee args =>
    unfold linkStmt linkCall at h
    dsimp only at h
    split at h
    next cached =>
      cases h
      exact ⟨before, by rintro n ⟨⟩; exact before cached⟩
    next =>
      split at h
      · cases h
      next e found =>
        split at h
        · cases h
        split at h
        · cases h
        next declared =>
          cases h
          have own : callee = f.name → f.Own t := by
            rintro rfl
            exact ⟨e, found, not_not.mp fun hne => declared ⟨rfl, hne⟩⟩
          refine ⟨fun hmem => ?_, by rintro n ⟨⟩; exact own rfl⟩
          rcases List.mem_cons.mp hmem with he | hmem
          · exact own he.symm
          · exact before hmem
  | _ => cases h; exact ⟨before, nofun⟩

/-- A name that the function calls in a reachable block and has itself is linked to the function. -/
theorem own_of_link {x : Executable} (h : f.link t = .ok x) {b : BlockId} (hb : b ∈ f.reachable)
    {s : Stmt} (hs : s ∈ f.code b) {n : Nat} (called : s.callee? = some (f.name, n)) : f.Own t := by
  obtain ⟨names, himports⟩ := (link_eq_ok_iff.mp h).1
  have blocks := forall_of_foldlM_eq_ok (P := fun known => f.name ∈ known → f.Own t)
    (Q := fun b => ∀ s ∈ f.code b, ∀ n, s.callee? = some (f.name, n) → f.Own t)
    (fun b known known' before hblock => ?_) (fun h => absurd h List.not_mem_nil) himports
  · exact blocks.2 b hb s hs n called
  unfold linkBlock at hblock
  cases hstmts : (f.block b).stmts.foldlM (f.linkStmt t) known with
  | error e => rw [hstmts] at hblock; cases hblock
  | ok known₁ =>
    rw [hstmts] at hblock
    have linked := forall_of_foldlM_eq_ok (fun s _ _ => own_of_linkStmt (s := s)) before hstmts
    dsimp only [bind, Except.bind] at hblock
    split at hblock
    · cases hblock
    · cases hblock; exact linked

end Func

end StackFlow.IR
