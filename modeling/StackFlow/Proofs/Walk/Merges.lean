import Mathlib
import StackFlow.Proofs.Code.Faults
import StackFlow.Proofs.Walk.Final

/-!
What the phi of a block joins. Every edge is followed once (`Journal.Reached.edges_perm`), so a phi has
one source for each forward edge into its block and no other. Main statement: `merges_forward_edges`.
-/
namespace StackFlow

open IR (Reg Stmt BlockId Func Terminator)

/-- The edges of a visit are those that its block's last instruction has inside the code. They leave
the block from one word and with one stack. -/
structure Visit.Leaves (m : Method) (v : Visit) (i : Instr) : Prop where
  last : (m.instrsIn v.start v.block.last).getLast? = some i
  dests : (v.edges.map (·.dest)).filter (· < m.length) = i.successors.filter (· < m.length)
  each : ∀ e ∈ v.edges, e.source = i.leavesAt ∧ e.pred = v.handle
  stack : ∀ e ∈ v.edges, ∀ e' ∈ v.edges, e.stack = e'.stack

/-- The end of the block that the edge leaves, and the value on top of the stack there. -/
def Edge.brings? (e : Edge) : Option (BlockId × Reg) := e.stack.top?.map (e.pred, ·)

/-- The block joins what the edges bring: nothing, or with a phi a value from each of them. -/
inductive BasicBlock.Joins (b : BasicBlock) (f : Func) (edges : List Edge) : Prop
  | nothing (merge : b.merge = none) (carries : b.carries = some false)
      (empty : ∀ e ∈ edges, e.stack.isEmpty = true) (plain : ∀ s ∈ f.code b.handle, s.isPhi = false)
  | phi {r : Reg} {sources : List (BlockId × Reg)} {code : List Stmt} (merge : b.merge = some r)
      (carries : b.carries = some true) (full : ∀ e ∈ edges, e.stack.isEmpty = false)
      (head : f.code b.handle = .phi r sources :: code) (plain : ∀ s ∈ code, s.isPhi = false)
      (joined : (sources.map some).Perm (edges.map Edge.brings?))
      (unique : ∀ p q q', (p, q) ∈ sources → (p, q') ∈ sources → q = q')

/-- The phi of a block has as many sources as there are edges. -/
theorem BasicBlock.Joins.incoming_eq {b : BasicBlock} {f : Func} {edges : List Edge}
    (h : b.Joins f edges) (merges : b.merge.isSome) : b.incoming f = edges.length := by
  cases h with
  | nothing merge => rw [merge] at merges; cases merges
  | phi merge _ _ head _ joined =>
    unfold BasicBlock.incoming Func.phiSources?
    have hstmts : (f.block b.handle).stmts = _ := head
    rw [merge, hstmts]
    simpa [Stmt.sourcesOf?] using joined.length_eq

theorem Compiled.mergeIncoming?_eq {k : Compiled} {p : Nat} {b : BasicBlock}
    (found : k.table.block? p = some b) :
    k.mergeIncoming? p = b.merge.map fun _ => b.incoming k.func := by
  unfold mergeIncoming?
  rw [found, Option.bind_eq_bind, Option.bind_some]
  cases b.merge <;> rfl

namespace Journal

variable {c : Compiler} {x : ExternTable} {j : Journal}

/-- The edges that leave the blocks entered. -/
def edges (j : Journal) : List Edge := j.visits.flatMap Visit.edges

/-- Those of them that lead forward to the position. -/
def forwardTo (j : Journal) (p : Nat) : List Edge :=
  j.edges.filter fun e => e.source < e.dest ∧ e.dest = p

/-- An edge that leaves a block entered is followed once, or still to be followed once. -/
theorem Reached.edges_perm (h : j.Reached c x) : (j.passed ++ j.pending).Perm j.edges := by
  induction h with
  | init => exact .nil
  | @step j j' before hs ih =>
    cases hs with
    | pass next =>
      rw [next] at ih
      simpa [edges] using ih
    | @enter v rest w code term next =>
      rw [next] at ih
      have hmore : ((j.passed ++ (v.via.toList ++ rest)) ++ v.edges).Perm (j.edges ++ v.edges) :=
        ih.append_right v.edges
      have hmove : ((j.passed ++ v.via.toList) ++ (v.edges ++ rest)).Perm
          ((j.passed ++ (v.via.toList ++ rest)) ++ v.edges) := by
        simp only [List.append_assoc]
        exact ((List.perm_append_comm).append_left _).append_left _
      simpa [edges] using hmove.trans hmore

/-- Only forward edges bring a value to a phi. -/
theorem flatMap_joins (es : List Edge) (p : Nat) :
    (es.filter (·.dest = p)).flatMap Edge.joins =
      (es.filter fun e => e.source < e.dest ∧ e.dest = p).filterMap Edge.brings? := by
  induction es with
  | nil => rfl
  | cons e es ih =>
    by_cases hp : e.dest = p
    · rcases Nat.lt_or_ge e.source e.dest with forward | backward
      · have hjoins : e.joins = e.brings?.toList := by
          rw [e.joins_forward forward]
          unfold Edge.brings?
          cases e.stack.top? <;> rfl
        rw [List.filter_cons_of_pos (by simp [hp]), List.flatMap_cons, ih, hjoins,
          List.filter_cons_of_pos (by simp [hp]; omega), List.filterMap_cons]
        cases e.brings? <;> rfl
      · rw [List.filter_cons_of_pos (by simp [hp]), List.flatMap_cons, ih,
          e.joins_backward backward, List.filter_cons_of_neg (by simp; omega), List.nil_append]
    · rw [List.filter_cons_of_neg (by simp [hp]), ih, List.filter_cons_of_neg (by simp [hp])]

theorem map_some_filterMap_brings? {es : List Edge} (full : ∀ e ∈ es, e.stack.isEmpty = false) :
    (es.filterMap Edge.brings?).map some = es.map Edge.brings? := by
  induction es with
  | nil => rfl
  | cons e es ih =>
    obtain ⟨r, regs, hregs⟩ := List.exists_cons_of_ne_nil
      (List.isEmpty_eq_false_iff.mp (full e List.mem_cons_self))
    have hbrings : e.brings? = some (e.pred, r) := by
      unfold Edge.brings? OperandStack.top?
      rw [hregs]
      rfl
    rw [List.filterMap_cons, List.map_cons, ← ih fun k hk => full k (List.mem_cons_of_mem e hk),
      hbrings]
    rfl

theorem mem_forwardTo {p : Nat} {e : Edge} :
    e ∈ j.forwardTo p ↔ (∃ v ∈ j.visits, e ∈ v.edges) ∧ e.source < e.dest ∧ e.dest = p := by
  simp [forwardTo, edges]

/-- Whether a forward edge brings a value to a block agrees with what the table notes. -/
theorem Final.carries_forward (h : j.Final c x) {v : Visit} (hv : v ∈ j.visits) {e : Edge}
    (he : e ∈ j.forwardTo v.start) : e.stack.isEmpty = !v.opened.top?.isSome := by
  obtain ⟨⟨u, hu, heu⟩, forward, hdest⟩ := mem_forwardTo.mp he
  have hcarried := h.reached.linked.carried e (h.edge_passed hu heu) forward v hv hdest.symm
  rw [hcarried]
  unfold OperandStack.top? OperandStack.isEmpty
  cases e.stack.regs <;> rfl

/-- The values that came to a block are those that the forward edges into it bring. -/
theorem Final.incoming_perm (h : j.Final c x) (p : Nat) :
    (j.incoming p).Perm ((j.forwardTo p).filterMap Edge.brings?) := by
  have hperm := h.reached.edges_perm
  rw [h.done, List.append_nil] at hperm
  unfold incoming
  rw [flatMap_joins]
  exact (hperm.filter _).filterMap _

/-- A block that was entered joins what the forward edges into it bring. -/
theorem Final.joins (h : j.Final c x) {b : BasicBlock} (hb : b ∈ j.walk.table.blocks)
    (compiled : b.compiled = true) : b.Joins j.func (j.forwardTo b.start) := by
  have found := (BlockTable.block?_eq_some_iff h.divides.nodup).mpr ⟨hb, rfl⟩
  obtain ⟨v, hv, hs, hhandle, -, hmerge, -, hcarries⟩ :=
    (h.reached.noted found).resolve_left fun hfresh => by rw [hfresh.1] at compiled; cases compiled
  obtain ⟨code, hcode, hlaid⟩ := h.reached.coded.filled v hv
  rw [← hs]
  have hagrees := fun e he => h.carries_forward hv (e := e) he
  cases htop : v.opened.top? with
  | none =>
    rw [htop] at hmerge hcarries hagrees
    refine .nothing hmerge hcarries hagrees ?_
    rw [← hhandle, hcode]
    simpa [OperandStack.phis, htop] using hlaid.isPhi
  | some phi =>
    rw [htop] at hmerge hcarries hagrees
    have head : j.func.code b.handle = .phi phi (j.incoming v.start) :: code := by
      rw [← hhandle, hcode]
      simp [OperandStack.phis, htop]
    refine .phi hmerge hcarries hagrees head hlaid.isPhi ?_ fun _ _ _ => h.incoming_unique
    · rw [← map_some_filterMap_brings? hagrees]
      exact (h.incoming_perm v.start).map some

/-- The edges of a block come from its last instruction. -/
theorem Final.exists_leaves (h : j.Final c x) {v : Visit} (hv : v ∈ j.visits) :
    ∃ i, v.Leaves c.method i := by
  obtain ⟨before, i, n, s, ending, hsplit, hnext, hafter, hending⟩ := h.exists_ending hv
  obtain ⟨code, -, hlaid⟩ := h.reached.coded.filled v hv
  refine ⟨i, ?_, ?_, ?_, fun e he e' he' => (hlaid.edge_unique he he').2⟩
  · rw [hsplit]
    simp
  · cases hc : i.opcode.control with
    | some control =>
      rw [hc] at hending
      rw [hending.dests_eq hc]
    | none =>
      rw [hc] at hending
      have hsuccessors : i.successors = [i.next] := by
        unfold Instr.successors
        rw [hc]
      rw [hending.dests_eq_following, hsuccessors]
      rcases hafter with ⟨hend, hfollows⟩ | ⟨-, hfollows⟩
      · simp [hfollows, hend]
      · simp [hfollows]
  · intro e he
    obtain ⟨hsource, hpred, -⟩ := hending.edge he
    refine ⟨?_, hpred⟩
    rw [hsource]
    unfold Instr.leavesAt Instr.transfers
    cases hc : i.opcode.control <;> simp
    omega

end Journal

/-- A phi joins the value that each forward edge into its block brings, an edge counted as often as it
occurs, and a block without a phi has only forward edges that bring nothing. -/
theorem merges_forward_edges (c : Compiler) (x : ExternTable) (k : Compiled)
    (standard : c.lowering = .standard) (accepted : (c.compile x).result = .ok k) :
    ∃ j, c.journal x = .ok j ∧ k = j.compiled ∧ (∀ v ∈ j.visits, ∃ i, v.Leaves c.method i) ∧
      (j.visits.map Visit.start).Nodup ∧
      ∀ b ∈ k.table.blocks, b.pending = [] ∧
        (b.compiled = true ↔
          ∃ v ∈ j.visits, (v.start, v.block.last, v.handle) = (b.start, b.last, b.handle)) ∧
        (b.compiled = true → b.Joins k.func (j.forwardTo b.start)) ∧
        k.mergeIncoming? b.start = b.merge.map fun _ => (j.forwardTo b.start).length := by
  obtain ⟨j, hj, rfl⟩ := Compiler.journal_of_compile accepted
  have h := Journal.final_of_journal standard hj
  refine ⟨j, hj, rfl, fun _ => h.exists_leaves, h.reached.linked.distinct, ?_⟩
  intro b hb
  have found : j.walk.table.block? b.start = some b :=
    (BlockTable.block?_eq_some_iff h.divides.nodup).mpr ⟨hb, rfl⟩
  have hpending : b.pending = [] := by
    rcases h.reached.noted found with ⟨-, -, hpending, -⟩ | ⟨_, _, _, _, _, _, hpending, -⟩
    · exact hpending
    · exact hpending
  refine ⟨hpending, h.compiled_iff hb, h.joins hb, ?_⟩
  rw [Compiled.mergeIncoming?_eq (k := j.compiled) found]
  cases hmerge : b.merge with
  | none => rfl
  | some r =>
    have compiled : b.compiled = true := by
      rcases h.reached.noted found with ⟨-, hnone, -⟩ | ⟨_, _, _, _, hc, -⟩
      · rw [hmerge] at hnone
        cases hnone
      · exact hc
    have hjoins : b.Joins j.compiled.func (j.forwardTo b.start) := h.joins hb compiled
    rw [hjoins.incoming_eq (by rw [hmerge]; rfl)]

/-- Both arms lead to one place: `putself; putself; branchif L; L: leave`. -/
def meeting : Compiler where
  method :=
    { name := "meeting"
      code := [3, 3, 26, 0, 23]
      stackMax := 2
      params := 0
      locals := 0
      instrs := [⟨0, .putSelf, []⟩, ⟨1, .putSelf, []⟩, ⟨2, .branchIf, [.offset 0]⟩, ⟨4, .leave, []⟩]
      verified := by cbv }
  lowering := .standard

theorem meeting_joins_twice : ∃ k, (meeting.compile .standard).result = .ok k ∧
    k.mergeIncoming? 4 = some 2 ∧ ∃ j, meeting.journal .standard = .ok j ∧
      (j.forwardTo 4).length = 2 ∧ ∃ b ∈ k.table.blocks, b.start = 4 ∧
        b.Joins k.func (j.forwardTo 4) := by
  obtain ⟨j, hj, hlength, b, hb, hs, hc, hmerge⟩ : ∃ j, meeting.journal .standard = .ok j ∧
      (j.forwardTo 4).length = 2 ∧ ∃ b ∈ j.walk.table.blocks, b.start = 4 ∧ b.compiled = true ∧
        b.merge = some ⟨6⟩ :=
    Compiler.journal_of_advanceBy 2 (by rfl)
  have accepted := Compiler.compile_of_journal hj
  obtain ⟨j', hj', -, -, -, hall⟩ := merges_forward_edges meeting .standard _ rfl accepted
  obtain rfl : j = j' := Except.ok.inj (hj.symm.trans hj')
  obtain ⟨-, -, hjoins, hincoming⟩ := hall b hb
  rw [hs, hmerge, hlength] at hincoming
  rw [hs] at hjoins
  exact ⟨_, accepted, hincoming, j, hj, hlength, b, hb, hs, hjoins hc⟩

end StackFlow
