import StackFlow.IR.Link
import StackFlow.Proofs.IR.Append
import StackFlow.Proofs.IR.Reachable

/-!
Well-formed functions: a register is defined once and used by its type, the statements name what there
is, and each block that control reaches has an end. Main statement: linking finds nothing wrong with
the code of such a function (`Func.WellFormed.link_cases`).
-/
namespace StackFlow.IR

/-- Type of the register that the statement defines. -/
def Stmt.type : Stmt → RegType
  | eq _ _ _ | ne _ _ _ => .bool
  | _ => .value

theorem Stmt.boolDest?_eq_some_iff {s : Stmt} {r : Reg} :
    s.boolDest? = some r ↔ s.dest? = some r ∧ s.type = .bool := by
  cases s <;> simp [boolDest?, dest?, type]

namespace Func

/-- The register is one of the function's, of that type. -/
def Typed (f : Func) (type : RegType) (r : Reg) : Prop := r.index < f.nextReg ∧ f.regType r = type

theorem regType_eq {f : Func} {type : RegType} {r : Reg} (h : r ∈ f.bools ↔ type = .bool) :
    f.regType r = type := by
  unfold regType
  split
  next hin => exact (h.mp hin).symm
  next hnot =>
    cases type with
    | value => rfl
    | bool => exact absurd (h.mpr rfl) hnot

/-- The registers that are noted as bool are the function's. -/
def Noted (f : Func) : Prop := ∀ r ∈ f.bools, r.index < f.nextReg

/-- The parameter, local or host function that the statement names is there. -/
def Refers (f : Func) (x : ExternTable) : Stmt → Prop
  | .arg _ i => i < f.params
  | .loadLocal _ i | .storeLocal i _ => i < f.locals
  | .call _ callee args => ∃ e, x.get? callee = some e ∧ e.arity = args.length
  | _ => True

/-- What the terminator decides on has the type for it, and no two cases of a switch have one key. -/
def Decides (f : Func) : Terminator → Prop
  | .branch cond _ _ => f.Typed .bool cond
  | .switch key cases _ => f.Typed .value key ∧ (cases.map Prod.fst).Nodup
  | .ret v => f.Typed .value v
  | .jump _ | .unreachable | .missing => True

/-- Registers of type bool are defined by comparisons and read by branches only. -/
structure WellFormed (f : Func) (x : ExternTable) : Prop where
  defined : ∀ r : Reg, f.stmts.countP (·.dest? = some r) = if r.index < f.nextReg then 1 else 0
  results : ∀ s ∈ f.stmts, ∀ r, s.dest? = some r → f.Typed s.type r
  operands : ∀ s ∈ f.stmts, ∀ r ∈ s.uses, f.Typed .value r
  refers : ∀ s ∈ f.stmts, f.Refers x s
  decides : ∀ b, f.Decides (f.exit b)
  reaches : ∀ b ∈ f.reachable, b.index < f.blocks.length ∧ f.exit b ≠ .missing ∧
    ∀ s ∈ f.successors b, s ∈ f.reachable

end Func

section Append

variable {b : Builder} {code : List Stmt} {r : Reg}

theorem Builder.mem_bools_append : r ∈ (b.append code).func.bools ↔
    r ∈ b.func.bools ∨ ∃ s ∈ code, s.dest? = some r ∧ s.type = .bool := by
  simp only [Builder.append, List.mem_append, List.mem_filterMap, Stmt.boolDest?_eq_some_iff]

/-- What is added to a function leaves the types of its registers as they are. -/
theorem Func.Typed.append {type : RegType} (h : b.func.Typed type r)
    (numbered : Numbered b.func.nextReg code) : (b.append code).func.Typed type r := by
  obtain ⟨hlt, htype⟩ := h
  refine ⟨Nat.lt_of_lt_of_le hlt (Nat.le_add_right _ _), Func.regType_eq ?_⟩
  have hold : r ∈ b.func.bools ↔ type = .bool := by
    rw [← htype, Func.regType]
    split <;> simp_all
  rw [Builder.mem_bools_append, ← hold]
  refine or_iff_left ?_
  rintro ⟨s, hs, hr, -⟩
  have := (numbered.bounds (List.mem_filterMap.mpr ⟨s, hs, hr⟩)).1
  omega

theorem Func.Noted.append (h : b.func.Noted) (numbered : Numbered b.func.nextReg code) :
    (b.append code).func.Noted := by
  intro r hr
  rw [Builder.append_nextReg]
  rcases Builder.mem_bools_append.mp hr with hold | ⟨s, hs, hr, -⟩
  · exact Nat.lt_of_lt_of_le (h r hold) (Nat.le_add_right _ _)
  · exact (numbered.bounds (List.mem_filterMap.mpr ⟨s, hs, hr⟩)).2

/-- A result of code that is added has the type of its definition. -/
theorem Func.Noted.typed_append (h : b.func.Noted) (numbered : Numbered b.func.nextReg code)
    {s : Stmt} (hs : s ∈ code) (hr : s.dest? = some r) : (b.append code).func.Typed s.type r := by
  obtain ⟨hle, hlt⟩ := numbered.bounds (List.mem_filterMap.mpr ⟨s, hs, hr⟩)
  refine ⟨hlt, Func.regType_eq ?_⟩
  rw [Builder.mem_bools_append]
  constructor
  · rintro (hold | ⟨t, ht, htr, htype⟩)
    · have := h r hold
      omega
    · rw [eq_of_dest numbered.nodup hs ht hr htr]
      exact htype
  · exact fun htype => .inr ⟨s, hs, hr, htype⟩

end Append

/-- A fold that fails has failed at one of the elements. -/
theorem exists_of_foldlM_eq_error {ε α β : Type} {g : β → α → Except ε β} {as : List α} {b : β}
    {e : ε} (h : as.foldlM g b = .error e) : ∃ a ∈ as, ∃ b, g b a = .error e := by
  induction as generalizing b with
  | nil => cases h
  | cons a as ih =>
    rw [List.foldlM_cons] at h
    cases hg : g b a with
    | error e' =>
      rw [hg] at h
      cases h
      exact ⟨a, List.mem_cons_self, b, hg⟩
    | ok b' =>
      rw [hg] at h
      obtain ⟨a', ha', hfails⟩ := ih h
      exact ⟨a', List.mem_cons_of_mem a ha', hfails⟩

namespace Func.WellFormed

variable {f : Func} {x : ExternTable} {e : LinkError}

/-- A statement of a well-formed function fails to link only by calling a host function that has the
name of the function itself. -/
theorem linkStmt_eq_error (h : f.WellFormed x) {s : Stmt} (hs : s ∈ f.stmts) {known : List String}
    (fails : f.linkStmt x known s = .error e) :
    e = .ownName f.name ∧ ∃ entry, x.get? f.name = some entry ∧ entry.arity ≠ entryArity := by
  cases s with
  | call d callee args =>
    obtain ⟨entry, found, arity⟩ : ∃ entry, x.get? callee = some entry ∧
      entry.arity = args.length := h.refers _ hs
    unfold linkStmt linkCall at fails
    dsimp only at fails
    split at fails
    · cases fails
    rw [found] at fails
    dsimp only at fails
    rw [if_neg fun hne => hne arity] at fails
    split at fails
    next own =>
      cases fails
      obtain ⟨rfl, hne⟩ := own
      exact ⟨rfl, entry, found, hne⟩
    next => cases fails
  | _ => cases fails

theorem linkBlock_eq_error (h : f.WellFormed x) {b : BlockId} (hb : b ∈ f.reachable)
    {known : List String} (fails : f.linkBlock x known b = .error e) :
    e = .ownName f.name ∧ ∃ entry, x.get? f.name = some entry ∧ entry.arity ≠ entryArity := by
  unfold linkBlock at fails
  cases hstmts : (f.block b).stmts.foldlM (f.linkStmt x) known with
  | error e' =>
    rw [hstmts] at fails
    cases fails
    obtain ⟨s, hs, known, hfails⟩ := exists_of_foldlM_eq_error hstmts
    exact h.linkStmt_eq_error (mem_stmts.mpr ⟨b, hs⟩) hfails
  | ok known' =>
    rw [hstmts] at fails
    have hended : (f.block b).terminator ≠ .missing := (h.reaches b hb).2.1
    simp [hended] at fails

/-- A well-formed function links, unless it is called like a host function of another arity. -/
theorem link_cases (h : f.WellFormed x) : f.link x = .ok ⟨f, x⟩ ∨
    f.link x = .error (.ownName f.name) ∧
      ∃ entry, x.get? f.name = some entry ∧ entry.arity ≠ entryArity := by
  unfold link
  cases himports : f.imports x with
  | ok names => exact .inl rfl
  | error e =>
    right
    obtain ⟨b, hb, known, hfails⟩ := exists_of_foldlM_eq_error himports
    obtain ⟨rfl, hentry⟩ := h.linkBlock_eq_error hb hfails
    exact ⟨rfl, hentry⟩

end Func.WellFormed

end StackFlow.IR
