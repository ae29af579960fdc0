import StackFlow.Proofs.Lowering.Typing
import StackFlow.Proofs.Walk.Counted
import StackFlow.Proofs.Walk.Graph

/-!
A compiled function is well-formed. The stack with which a block is entered holds values only, for its
top is a phi and all else was on the stack of the block before. Main statement: linking such a function
with the host functions that it was compiled for finds nothing wrong with its code
(`links_of_compile`).
-/
namespace StackFlow

open IR (Reg Stmt BlockId Func Terminator)

namespace Visit.Laid

variable {m : Method} {x : ExternTable} {t : BlockTable} {trap : Option BlockId} {v : Visit}
  {code : List Stmt} {term : Terminator} {f : Func}

/-- If the stack holds values on entry of a block, it does so where an edge leaves it. -/
theorem typed (h : v.Laid m x t trap code term) (hs : ∀ r ∈ v.opened.regs, f.Typed .value r)
    (hc : ∀ stmt ∈ code, ∀ r, stmt.dest? = some r → f.Typed stmt.type r) :
    (∀ stmt ∈ code, ∀ r ∈ stmt.uses, f.Typed .value r) ∧ f.Decides term ∧
      ∀ e ∈ v.edges, ∀ r ∈ e.stack.regs, f.Typed .value r := by
  obtain ⟨straight, ending, s, rfl, -, hstraight, hending⟩ := h
  obtain ⟨hfirst, hlast⟩ := List.forall_mem_append.mp hc
  obtain ⟨huses, hstack⟩ := hstraight.typed hs hfirst
  have hm : ∀ p ∈ (m.instrsIn v.start v.block.last).findSome? fun i => i.opcode.control.map (i, ·),
      p.1 ∈ m.instrs := by
    intro p hp
    obtain ⟨i, hi, hcontrol⟩ := List.exists_of_findSome?_eq_some hp
    obtain ⟨control, -, rfl⟩ := Option.map_eq_some_iff.mp hcontrol
    exact Method.mem_of_mem_instrsIn hi
  obtain ⟨huses', hdecides⟩ := hending.typed hm hstack hlast
  exact ⟨List.forall_mem_append.mpr ⟨huses, huses'⟩, hdecides,
    fun e he r hr => hstack r (hending.mem_stack he hr)⟩

theorem refers (h : v.Laid m x t trap code term) (hf : f.locals = m.locals) :
    ∀ stmt ∈ code, f.Refers x stmt := by
  obtain ⟨straight, ending, s, rfl, -, hstraight, hending⟩ := h
  refine List.forall_mem_append.mpr ⟨hstraight.refers ?_ hf, hending.refers⟩
  exact fun i hi => Method.mem_of_mem_instrsIn ((List.takeWhile_prefix _).subset hi)

theorem ne_missing (h : v.Laid m x t trap code term) : term ≠ .missing := by
  obtain ⟨straight, ending, s, -, -, -, hending⟩ := h
  exact hending.ne_missing

end Visit.Laid

namespace Journal.Reached

variable {c : Compiler} {x : ExternTable} {j : Journal}

/-- What the code of a block that was entered defines has the type of its definition. -/
theorem exists_laid (h : j.Reached c x) {v : Visit} (hv : v ∈ j.visits) :
    ∃ code, j.func.code v.handle = v.opened.phis (j.incoming v.start) ++ code ∧
      v.Laid c.method x j.walk.table j.walk.trap code (j.func.exit v.handle) ∧
      ∀ s ∈ code, ∀ r, s.dest? = some r → j.func.Typed s.type r := by
  obtain ⟨code, hcode, hlaid⟩ := h.coded.filled v hv
  refine ⟨code, hcode, hlaid, fun s hs r hr => h.counted.typed ?_ hr⟩
  refine Func.mem_stmts.mpr ⟨v.handle, ?_⟩
  rw [hcode]
  exact List.mem_append_right _ hs

/-- The top of the stack on entry of a block is a value. -/
theorem top_typed (h : j.Reached c x) {v : Visit} (hv : v ∈ j.visits) {r : Reg}
    (top : v.opened.top? = some r) : j.func.Typed .value r := by
  obtain ⟨code, hcode, -⟩ := h.coded.filled v hv
  have hphi : .phi r (j.incoming v.start) ∈ j.func.stmts := by
    refine Func.mem_stmts.mpr ⟨v.handle, ?_⟩
    rw [hcode]
    simp [OperandStack.phis, top]
  exact h.counted.typed hphi rfl

/-- The stack on entry of a block holds values. -/
theorem opened_typed (h : j.Reached c x) :
    ∀ v ∈ j.visits, ∀ r ∈ v.opened.regs, j.func.Typed .value r := by
  apply h.linked.visit_induction (P := fun v => ∀ r ∈ v.opened.regs, j.func.Typed .value r)
  · intro v _ begins
    rw [begins.opened]
    nofun
  · intro u hu e he _ v hv via ih r hr
    obtain ⟨code, -, hlaid, hdests⟩ := h.exists_laid hu
    cases hregs : v.opened.regs with
    | nil =>
      rw [hregs] at hr
      cases hr
    | cons top below =>
      rw [hregs] at hr
      rcases List.mem_cons.mp hr with rfl | hbelow
      · exact h.top_typed hv (by rw [OperandStack.top?, hregs]; rfl)
      · exact (hlaid.typed ih hdests).2.2 e he r (via.mem_tail (by rw [hregs]; exact hbelow))

/-- The stack that an edge takes along holds values. -/
theorem edge_typed (h : j.Reached c x) {e : Edge} (he : e ∈ j.passed ∨ e ∈ j.pending) {r : Reg}
    (hr : r ∈ e.stack.regs) : j.func.Typed .value r := by
  obtain ⟨u, hu, heu⟩ := (h.linked.edges e).mp he
  obtain ⟨code, -, hlaid, hdests⟩ := h.exists_laid hu
  exact (hlaid.typed (h.opened_typed u hu) hdests).2.2 e heu r hr

end Journal.Reached

namespace Journal.Final

variable {c : Compiler} {x : ExternTable} {j : Journal}

/-- A source of a phi is a value: it was on top of the stack of the edge that brought it. -/
theorem incoming_typed (h : j.Final c x) {start : Nat} {p : BlockId × Reg}
    (hp : p ∈ j.incoming start) : j.func.Typed .value p.2 := by
  obtain ⟨e, he, -, -, -, top⟩ := mem_incoming.mp hp
  exact h.reached.edge_typed (.inl he) (List.mem_of_head? top)

/-- A statement reads values only, and what it names is there. -/
theorem typed_and_refers (h : j.Final c x) {s : Stmt} (hs : s ∈ j.func.stmts) :
    (∀ r ∈ s.uses, j.func.Typed .value r) ∧ j.func.Refers x s := by
  obtain ⟨b, hb⟩ := Func.mem_stmts.mp hs
  have hframe : j.func.frame = (c.method.params, c.method.locals) := h.reached.counted.frame
  by_cases hreach : b ∈ j.func.reachable
  · rcases h.mem_reachable.mp hreach with rfl | ⟨v, hv, rfl⟩ | htrap
    · have hcode := h.reached.coded.entry
      rw [hcode] at hb
      refine ⟨Lowering.localsCode_typed (fun t ht r hr => ?_) s hb,
        Lowering.localsCode_refers hframe s hb⟩
      exact h.reached.counted.typed (Func.mem_stmts.mpr ⟨Func.entry, by rw [hcode]; exact ht⟩) hr
    · obtain ⟨code, hcode, hlaid, hdests⟩ := h.reached.exists_laid hv
      rw [hcode] at hb
      rcases List.mem_append.mp hb with hphi | hin
      · obtain ⟨r, -, rfl⟩ := List.mem_map.mp hphi
        refine ⟨?_, trivial⟩
        exact List.forall_mem_map.mpr fun p hp => h.incoming_typed hp
      · exact ⟨(hlaid.typed (h.reached.opened_typed v hv) hdests).1 s hin,
          hlaid.refers (Prod.mk.inj hframe).2 s hin⟩
    · rw [(h.code_trap htrap).1] at hb
      cases hb
  · rw [(h.idle_of_not_reachable hreach).1] at hb
    cases hb

theorem decides (h : j.Final c x) (b : BlockId) : j.func.Decides (j.func.exit b) := by
  by_cases hreach : b ∈ j.func.reachable
  · rcases h.mem_reachable.mp hreach with rfl | ⟨v, hv, rfl⟩ | htrap
    · obtain ⟨target, -, hexit⟩ := h.reached.coded.start
      rw [hexit]
      trivial
    · obtain ⟨code, -, hlaid, hdests⟩ := h.reached.exists_laid hv
      exact (hlaid.typed (h.reached.opened_typed v hv) hdests).2.1
    · rw [(h.code_trap htrap).2.1]
      trivial
  · rw [(h.idle_of_not_reachable hreach).2]
    trivial

/-- A block that control reaches is one of the function's, and has an end. -/
theorem ended_of_reachable (h : j.Final c x) {b : BlockId} (hb : b ∈ j.func.reachable) :
    b.index < j.func.blocks.length ∧ j.func.exit b ≠ .missing := by
  rcases h.mem_reachable.mp hb with rfl | ⟨v, hv, rfl⟩ | htrap
  · obtain ⟨target, -, hexit⟩ := h.reached.coded.start
    exact ⟨h.reached.coded.inside, by rw [hexit]; nofun⟩
  · obtain ⟨k, hk, -, -, hh⟩ := h.reached.linked.exists_block hv
    obtain ⟨code, -, hlaid, -⟩ := h.reached.exists_laid hv
    refine ⟨?_, hlaid.ne_missing⟩
    rw [← hh]
    exact h.reached.tidy.inside k hk
  · obtain ⟨hexit, -, hinside, -⟩ := h.reached.coded.trap b htrap
    exact ⟨hinside, by rw [hexit]; nofun⟩

theorem wellFormed (h : j.Final c x) : j.func.WellFormed x where
  defined := h.reached.counted.countP_dest
  results s hs r hr := h.reached.counted.typed hs hr
  operands s hs := (h.typed_and_refers hs).1
  refers s hs := (h.typed_and_refers hs).2
  decides := h.decides
  reaches b hb := by
    obtain ⟨hinside, hended⟩ := h.ended_of_reachable hb
    exact ⟨hinside, hended, fun s hs => j.func.successor_mem_reachable hb hs⟩

end Journal.Final

/-- A compiled function is well-formed, and links with the host functions that it was compiled for
unless it is called like one of another arity. -/
theorem links_of_compile (c : Compiler) (x : ExternTable) (k : Compiled)
    (standard : c.lowering = .standard) (accepted : (c.compile x).result = .ok k) :
    k.func.WellFormed x ∧ (k.func.link x = .ok ⟨k.func, x⟩ ∨
      k.func.link x = .error (.ownName k.func.name) ∧
        ∃ entry, x.get? k.func.name = some entry ∧ entry.arity ≠ IR.entryArity) := by
  obtain ⟨j, hj, rfl⟩ := Compiler.journal_of_compile accepted
  have wellFormed := (Journal.final_of_journal standard hj).wellFormed
  exact ⟨wellFormed, wellFormed.link_cases⟩

/-- A table of two cases: `getlocal 0; opt_case_dispatch {1: A, 2: B} B; A: putself; leave; B: putnil;
leave`. -/
def choosing : Compiler where
  method :=
    { name := "choosing"
      code := [12, 0, 29, 2, 3, 0, 5, 2, 2, 3, 23, 2, 23]
      stackMax := 1
      params := 1
      locals := 1
      instrs := [⟨0, .getLocal, [.literal 0]⟩,
        ⟨2, .caseDispatch, [.literal 2, .value ⟨3⟩, .offset 0, .value ⟨5⟩, .offset 2, .offset 2]⟩,
        ⟨9, .putSelf, []⟩, ⟨10, .leave, []⟩, ⟨11, .putNil, []⟩, ⟨12, .leave, []⟩]
      verified := by cbv }
  lowering := .standard

theorem choosing_links : ∃ k, (choosing.compile .standard).result = .ok k ∧
    k.func.WellFormed .standard ∧ k.func.link .standard = .ok ⟨k.func, .standard⟩ := by
  obtain ⟨j, hj, hname⟩ : ∃ j, choosing.journal .standard = .ok j ∧ j.func.name = "choosing" :=
    Compiler.journal_of_advanceBy 3 (by rfl)
  have accepted := Compiler.compile_of_journal hj
  obtain ⟨wellFormed, hlinks | ⟨-, entry, hentry, -⟩⟩ :=
    links_of_compile choosing .standard _ rfl accepted
  · exact ⟨_, accepted, wellFormed, hlinks⟩
  · have hnone : ExternTable.standard.get? "choosing" = none := by rfl
    rw [show j.compiled.func.name = "choosing" from hname, hnone] at hentry
    cases hentry

end StackFlow
