import StackFlow.Proofs.Code.Faults
import StackFlow.Proofs.Walk.Remains

/-!
The depths that a compilation works with are depths of paths: a path over instructions that fit comes
to each block with the depth of its stack on entry (`Journal.Reached.arrives`) and along each edge with
the depth of the stack that the edge carries (`Journal.Reached.arrivesFrom`).
-/
namespace StackFlow

open IR (Reg Stmt BlockId Terminator dests)

variable {m : Method} {x : ExternTable}

theorem Straight.moves {i : Instr} {n : Nat} {s t : List Reg} {c : List Stmt}
    (h : Straight x m.stackMax i n s c t) (hi : i ∈ m.instrs) (plain : i.opcode.control = none)
    (bounded : s.length ≤ m.stackMax) : m.Moves i i.position s.length i.next t.length := by
  obtain ⟨hle, hlen⟩ := h.length_eq
  have hroom := h.length_le bounded
  exact {
    found := Method.instrAt?_eq_some_iff.mpr ⟨hi, rfl⟩
    fits := ⟨by omega, by omega, fun kind hk => by rw [plain] at hk; cases hk⟩
    depth := by omega
    leads := by simp [Instr.successors, plain] }

theorem Ending.moves {t : BlockTable} {trap : Option BlockId} {b : BasicBlock} {n : Nat} {i : Instr}
    {control : Control} {s : OperandStack} {code : List Stmt} {term : Terminator} {edges : List Edge}
    (h : Ending m x t trap b n (some (i, control)) s code term edges) (hi : i ∈ m.instrs)
    (transfers : i.opcode.control = some control) (bounded : s.depth ≤ m.stackMax) {e : Edge}
    (he : e ∈ edges) : m.Moves i i.position s.depth e.dest e.stack.depth := by
  obtain ⟨hle, hput, hdepths, hexit⟩ := h.depth_eq transfers
  have hdepth := hdepths e he
  exact {
    found := Method.instrAt?_eq_some_iff.mpr ⟨hi, rfl⟩
    fits := by
      refine ⟨by omega, by omega, fun kind hk => ?_⟩
      rw [transfers] at hk
      have := hexit kind (Option.some.inj hk)
      omega
    depth := by omega
    leads := by
      rw [← h.dests_eq transfers]
      exact List.mem_map_of_mem he }

/-- Over straight instructions a path goes on with the depth that lowering them leaves. -/
theorem Straights.arrives {is : List Instr} {p q n : Nat} {s t : List Reg} {c : List Stmt}
    (h : Straights x m.stackMax is n s c t) (spans : Code.Contiguous p is q)
    (mem : ∀ i ∈ is, i ∈ m.instrs) (plain : ∀ i ∈ is, i.opcode.control = none)
    (bounded : s.length ≤ m.stackMax) (path : m.Arrives p s.length) : m.Arrives q t.length := by
  induction h generalizing p with
  | nil =>
    cases spans
    exact path
  | cons first _ ih =>
    obtain ⟨rfl, spans⟩ := spans
    have hmove := first.moves (mem _ List.mem_cons_self) (plain _ List.mem_cons_self) bounded
    exact ih spans (fun k hk => mem k (List.mem_cons_of_mem _ hk))
      (fun k hk => plain k (List.mem_cons_of_mem _ hk)) (first.length_le bounded) (path.step hmove)

/-- A path that comes to the rest of a block goes on along every edge of the block. -/
theorem Visit.Remains.arrivesFrom {t : BlockTable} {trap : Option BlockId} {v : Visit}
    {term : Terminator} {p n : Nat} {r : List Reg} {code : List Stmt}
    (h : v.Remains m x t trap term p n r code) (max : v.opened.max = m.stackMax)
    (bounded : r.length ≤ m.stackMax) (path : m.Arrives p r.length)
    (ended : p = v.block.last + 1 → m.ArrivesFrom v.block.last p r.length) :
    ∀ e ∈ v.edges, m.ArrivesFrom e.source e.dest e.stack.depth := by
  induction h with
  | @straight i n r r' c code mem _ plain lowered _ ih =>
    rw [max] at lowered
    have hmove := lowered.moves mem plain bounded
    refine ih (lowered.length_le bounded) (path.step hmove) fun hend => ?_
    refine ⟨i, i.position, r.length, path, hmove, ?_⟩
    have hplain : i.transfers = false := by simp [Instr.transfers, plain]
    rw [Instr.leavesAt, hplain]
    show i.next - 1 = v.block.last
    omega
  | @transfer i control n s code mem _ transfers ending =>
    intro e he
    refine ⟨i, i.position, s.depth, path, ending.moves mem transfers bounded he, ?_⟩
    have htransfers : i.transfers = true := by simp [Instr.transfers, transfers]
    rw [(ending.edge he).1, Instr.leavesAt, if_pos htransfers]
    rfl
  | @stop n s code leads ending =>
    intro e he
    obtain ⟨hsource, -, -, hregs⟩ := ending.edge he
    have hdest : e.dest ∈ (t.following? v.block.start).toList := by
      rw [← ending.dests_eq_following]
      exact List.mem_map_of_mem he
    rcases leads with ⟨-, hnone⟩ | ⟨-, hsome⟩
    · rw [hnone] at hdest
      cases hdest
    · rw [hsome] at hdest
      have hdepth : e.stack.depth = s.regs.length := by
        unfold OperandStack.depth
        rw [hregs]
        rfl
      rw [List.mem_singleton.mp hdest, hsource, hdepth]
      exact ended rfl

namespace Journal.Reached

variable {c : Compiler} {j : Journal}

theorem visit_arrivesFrom (h : j.Reached c x) {v : Visit} (hv : v ∈ j.visits)
    (path : c.method.Arrives v.start v.opened.depth) :
    ∀ e ∈ v.edges, c.method.ArrivesFrom e.source e.dest e.stack.depth := by
  obtain ⟨code, -, hremains⟩ := h.remains hv
  obtain ⟨hmax, hle⟩ := h.depth_le v hv
  apply hremains.arrivesFrom hmax hle path
  intro hend
  have := (h.contiguous_body hv).1
  omega

/-- A path comes to each block that was entered, with the depth of its stack. -/
theorem arrives (h : j.Reached c x) : ∀ v ∈ j.visits, c.method.Arrives v.start v.opened.depth := by
  apply h.linked.visit_induction (P := fun v => c.method.Arrives v.start v.opened.depth)
  · intro v _ begins
    rw [begins.start, begins.opened]
    exact .start
  · intro u hu e he _ v _ via ih
    rw [via.start, via.depth]
    exact (h.visit_arrivesFrom hu ih e he).arrives

/-- A path goes along each edge, with the depth of the stack that the edge carries. -/
theorem arrivesFrom (h : j.Reached c x) {e : Edge} (he : e ∈ j.passed ∨ e ∈ j.pending) :
    c.method.ArrivesFrom e.source e.dest e.stack.depth := by
  obtain ⟨u, hu, heu⟩ := (h.linked.edges e).mp he
  exact h.visit_arrivesFrom hu (h.arrives u hu) e heu

end Journal.Reached

end StackFlow
