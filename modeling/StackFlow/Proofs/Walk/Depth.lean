import Mathlib
import StackFlow.Proofs.Walk.Arrivals

/-!
The depth of the operand stack at compile time against its depth along the paths of control. Main
statement: all paths agree exactly if every edge leaves the depth with which its block was entered
(`Journal.Final.balanced_iff_level`).
-/
namespace StackFlow

open IR (Reg Stmt BlockId Func Terminator dests)

namespace Method

variable {m : Method}

/-- The depth after the instructions, where it was `d` before them. -/
def depthAfter (is : List Instr) (d : Int) : Int :=
  is.foldl (fun d i => d - i.effect.1 + i.effect.2) d

theorem depthAfter_append (is : List Instr) (i : Instr) (d : Int) :
    depthAfter (is ++ [i]) d = depthAfter is d - i.effect.1 + i.effect.2 := by
  simp [depthAfter]

/-- Between two positions the instructions are determined. -/
theorem contiguous_unique {p q : Nat} {is js : List Instr} (hi : Code.Contiguous p is q)
    (hj : Code.Contiguous p js q) (memi : ∀ i ∈ is, i ∈ m.instrs) (memj : ∀ i ∈ js, i ∈ m.instrs) :
    is = js := by
  induction is generalizing p js with
  | nil =>
    cases hi
    cases js with
    | nil => rfl
    | cons k js =>
      obtain ⟨hk, hj⟩ := hj
      have := hj.first_le_last
      have := k.position_lt_next
      omega
  | cons i is ih =>
    obtain ⟨rfl, hi⟩ := hi
    cases js with
    | nil =>
      cases hj
      have := hi.first_le_last
      have := i.position_lt_next
      omega
    | cons k js =>
      obtain ⟨hk, hj⟩ := hj
      obtain rfl : k = i := m.contiguous.position_injective (memj k List.mem_cons_self)
        (memi i List.mem_cons_self) hk
      rw [ih hi hj (fun l hl => memi l (List.mem_cons_of_mem _ hl))
        (fun l hl => memj l (List.mem_cons_of_mem _ hl))]

end Method

namespace Visit.Remains

variable {m : Method} {x : ExternTable} {t : BlockTable} {trap : Option BlockId} {v : Visit}
  {term : Terminator}

/-- Past the last instruction of a block the one edge that is left goes on, with all of the stack. -/
theorem exists_edge_of_end {p n : Nat} {r : List Reg} {code : List Stmt}
    (h : v.Remains m x t trap term p n r code) (outside : v.block.last < p) (hlt : p < m.length) :
    ∃ e ∈ v.edges, e.dest = p ∧ e.stack.depth = r.length := by
  cases h with
  | straight _ inside => omega
  | transfer _ inside => omega
  | @stop n s code leads ending =>
    rcases leads with ⟨hend, -⟩ | ⟨-, hfollows⟩
    · omega
    · have hdest : v.block.last + 1 ∈ v.edges.map (·.dest) := by
        rw [ending.dests_eq_following, hfollows]
        exact List.mem_singleton_self _
      obtain ⟨e, he, hd⟩ := List.mem_map.mp hdest
      refine ⟨e, he, hd, ?_⟩
      unfold OperandStack.depth
      rw [(ending.edge he).2.2.2]
      rfl

end Visit.Remains

namespace Journal

variable {c : Compiler} {x : ExternTable} {j : Journal}

/-- Compilation came to the instruction at the position with this depth. -/
def Stands (c : Compiler) (x : ExternTable) (j : Journal) (p : Nat) (d : Int) : Prop :=
  ∃ v ∈ j.visits, ∃ is n r code, Code.Contiguous v.start is p ∧ (∀ i ∈ is, i ∈ c.method.instrs) ∧
    p ≤ v.block.last ∧ r.length ≤ v.opened.max ∧ d = r.length ∧
    Method.depthAfter is v.opened.depth = d ∧
    v.Remains c.method x j.walk.table j.walk.trap (j.func.exit v.handle) p n r code

/-- Every edge leaves its block with the depth with which its destination was entered. -/
def Level (j : Journal) : Prop :=
  ∀ e ∈ j.passed, ∀ v ∈ j.visits, v.start = e.dest → e.stack.depth = v.opened.depth

instance (j : Journal) : Decidable j.Level :=
  inferInstanceAs (Decidable (∀ e ∈ j.passed, ∀ v ∈ j.visits, v.start = e.dest →
    e.stack.depth = v.opened.depth))

namespace Final

/-- A path comes to each block that was entered, with the depth of its stack. -/
theorem reaches (h : j.Final c x) :
    ∀ v ∈ j.visits, c.method.Reaches v.start v.opened.depth :=
  fun v hv => (h.reached.arrives v hv).reaches

theorem stands_start (h : j.Final c x) {v : Visit} (hv : v ∈ j.visits) :
    Stands c x j v.start v.opened.depth := by
  obtain ⟨code, -, hremains⟩ := h.remains hv
  obtain ⟨hmax, hle⟩ := h.depth_le v hv
  exact ⟨v, hv, [], v.next, v.opened.regs, code, rfl, by simp, (h.contiguous_body hv).1,
    Nat.le_trans hle (Nat.le_of_eq hmax.symm), rfl, rfl, hremains⟩

/-- An edge comes to an instruction with the depth that compilation came there with. -/
theorem stands_dest (h : j.Final c x) (level : j.Level) {u : Visit} (hu : u ∈ j.visits) {e : Edge}
    (he : e ∈ u.edges) (hlt : e.dest < c.method.length) : Stands c x j e.dest e.stack.depth := by
  obtain ⟨v, hv, hs⟩ := h.exists_visit_of_lt hu he hlt
  have hstands := h.stands_start hv
  rw [hs, ← level e (h.edge_passed hu he) v hv hs] at hstands
  exact hstands

/-- One step along a path, where all edges are level. -/
theorem stands_step (h : j.Final c x) (level : j.Level) {p : Nat} {d : Int}
    (hs : Stands c x j p d) {i : Instr} (hi : c.method.instrAt? p = some i) :
    c.method.Fits i d ∧ ∀ q ∈ i.successors, q < c.method.length →
      Stands c x j q (d - i.effect.1 + i.effect.2) := by
  obtain ⟨v, hv, is, n, r, code, hspans, hmem, hinside, hmax, rfl, hdepth, hremains⟩ := hs
  obtain ⟨himem, hip⟩ := Method.instrAt?_eq_some_iff.mp hi
  have hstack := (h.depth_le v hv).1
  cases hremains with
  | @straight k _ _ r' c' code' mem _ plain lowered rest =>
    obtain rfl : i = k := c.method.contiguous.position_injective himem mem hip
    obtain ⟨hle, hlen⟩ := lowered.length_eq
    have hroom := lowered.length_le hmax
    refine ⟨⟨by omega, by omega, fun kind hk => by rw [plain] at hk; cases hk⟩, ?_⟩
    intro q hq hlt
    have hq' : q = i.next := by simpa [Instr.successors, plain] using hq
    subst hq'
    have hnew : (r.length : Int) - i.effect.1 + i.effect.2 = r'.length := by omega
    rw [hnew]
    by_cases hle' : i.next ≤ v.block.last
    · refine ⟨v, hv, is ++ [i], _, r', code', ?_, ?_, hle', hroom, rfl, ?_, rest⟩
      · exact Code.Contiguous.append_iff.mpr ⟨i.position, hspans, rfl, rfl⟩
      · intro k hk
        rcases List.mem_append.mp hk with hk | hk
        · exact hmem k hk
        · rw [List.mem_singleton.mp hk]
          exact mem
      · rw [Method.depthAfter_append, hdepth, hnew]
    · obtain ⟨e, he, hd, hcarries⟩ := rest.exists_edge_of_end (by omega) hlt
      rw [← hcarries, ← hd]
      exact h.stands_dest level hv he (by rw [hd]; exact hlt)
  | @transfer k control _ s _ mem _ transfers ending =>
    obtain rfl : i = k := c.method.contiguous.position_injective himem mem hip
    obtain ⟨hle, hput, hdepths, hexit⟩ := ending.depth_eq transfers
    unfold OperandStack.depth at hle hdepths hexit
    refine ⟨⟨by omega, by omega, fun kind hk => ?_⟩, ?_⟩
    · rw [transfers] at hk
      have := hexit kind (Option.some.inj hk)
      omega
    · intro q hq hlt
      rw [← ending.dests_eq transfers] at hq
      obtain ⟨e, he, rfl⟩ := List.mem_map.mp hq
      have := hdepths e he
      have hnew : (s.regs.length : Int) - i.effect.1 + i.effect.2 = e.stack.depth := by
        unfold OperandStack.depth
        omega
      rw [hnew]
      exact h.stands_dest level hv he hlt
  | stop => omega

theorem stands_unique (h : j.Final c x) {p : Nat} {d d' : Int} (hs : Stands c x j p d)
    (hs' : Stands c x j p d') : d' = d := by
  obtain ⟨v, hv, is, n, r, code, hspans, hmem, hle, -, -, hd, -⟩ := hs
  obtain ⟨v', hv', is', n', r', code', hspans', hmem', hle', -, -, hd', -⟩ := hs'
  obtain ⟨b, hb, hbs, hbl, -⟩ := h.reached.linked.exists_block hv
  obtain ⟨b', hb', hbs', hbl', -⟩ := h.reached.linked.exists_block hv'
  have hstart := hspans.first_le_last
  have hstart' := hspans'.first_le_last
  have hsame : b = b' := h.divides.eq_of_within hb hb' (p := p) (by omega) (by omega)
  obtain rfl : v = v' := h.reached.linked.eq_of_start_eq hv hv' (by rw [← hbs, hsame, hbs'])
  rw [Method.contiguous_unique hspans' hspans hmem' hmem] at hd'
  rw [← hd, ← hd']

/-- Where all edges are level, compilation came to whatever a path comes to. -/
theorem stands_of_reaches (h : j.Final c x) (level : j.Level) {p : Nat} {d : Int}
    (hp : c.method.Reaches p d) (hlt : p < c.method.length) : Stands c x j p d := by
  induction hp with
  | start =>
    obtain ⟨v, hv, begins⟩ := h.exists_first
    have hstands := h.stands_start hv
    rw [begins.start, begins.opened] at hstands
    exact hstands
  | step before found after ih =>
    obtain ⟨mem, rfl⟩ := Method.instrAt?_eq_some_iff.mp found
    have hpos := (Method.Holds.lt_length ⟨_, mem, rfl⟩)
    exact (h.stands_step level (ih hpos) found).2 _ after hlt

/-- All paths agree on the depth exactly if all edges are level. -/
theorem balanced_iff_level (h : j.Final c x) : c.method.Balanced ↔ j.Level := by
  constructor
  · intro balanced e he v hv hs
    have hedge := (h.reached.arrivesFrom (.inl he)).arrives.reaches
    obtain ⟨b, hb, hbs, -⟩ := h.reached.linked.exists_block hv
    obtain ⟨i, hi, hip⟩ := h.divides.holds_start hb
    rw [hbs] at hip
    have found := Method.instrAt?_eq_some_iff.mpr ⟨hi, hip⟩
    rw [← hs] at hedge
    have := (balanced v.start i found _ (h.reaches v hv)).2 _ hedge
    omega
  · intro level p i found d hp
    have hlt := Method.Holds.lt_length ⟨i, Method.instrAt?_eq_some_iff.mp found⟩
    have hstands := h.stands_of_reaches level hp hlt
    exact ⟨(h.stands_step level hstands found).1, fun d' hp' =>
      h.stands_unique hstands (h.stands_of_reaches level hp' hlt)⟩

end Final

end Journal

/-- The depths on all paths through an accepted method are consistent exactly if every edge that the
compilation followed leaves the depth with which its destination was entered. The compilation itself
sees only to less: a path comes to each block with the depth that it was entered with, and of the
forward edges into a block either all or none leave an empty stack. -/
theorem balanced_iff_edges_level (c : Compiler) (x : ExternTable) (k : Compiled)
    (standard : c.lowering = .standard) (accepted : (c.compile x).result = .ok k) :
    ∃ j, c.journal x = .ok j ∧ k = j.compiled ∧ (c.method.Balanced ↔ j.Level) ∧
      (∀ v ∈ j.visits, c.method.Reaches v.start v.opened.depth ∧
        v.opened.depth ≤ c.method.stackMax) ∧
      ∀ e ∈ j.passed, e.source < e.dest → ∀ v ∈ j.visits, v.start = e.dest →
        (e.stack.depth = 0 ↔ v.opened.depth = 0) := by
  obtain ⟨j, hj, hk⟩ := Compiler.journal_of_compile accepted
  have h := Journal.final_of_journal standard hj
  refine ⟨j, hj, hk, h.balanced_iff_level, ?_, ?_⟩
  · intro v hv
    exact ⟨h.reaches v hv, (h.depth_le v hv).2⟩
  · intro e he forward v hv hs
    have hcarried := h.reached.linked.carried e he forward v hv hs
    unfold OperandStack.top? at hcarried
    unfold OperandStack.depth
    cases hv' : v.opened.regs <;> cases he' : e.stack.regs <;> simp_all

/-- Both arms leave one value: `putself; branchif L; putnil; jump M; L: putself; M: leave`. -/
def ternary : Compiler where
  method :=
    { name := "ternary"
      code := [3, 26, 3, 2, 25, 1, 3, 23]
      stackMax := 1
      params := 0
      locals := 0
      instrs := [⟨0, .putSelf, []⟩, ⟨1, .branchIf, [.offset 3]⟩, ⟨3, .putNil, []⟩,
        ⟨4, .jump, [.offset 1]⟩, ⟨6, .putSelf, []⟩, ⟨7, .leave, []⟩]
      verified := by cbv }
  lowering := .standard

theorem ternary_balanced :
    (∃ k, (ternary.compile .standard).result = .ok k) ∧ ternary.method.Balanced := by
  obtain ⟨j, hj, level⟩ : ∃ j, ternary.journal .standard = .ok j ∧ j.Level :=
    Compiler.journal_of_advanceBy 5 (by rfl)
  have accepted := Compiler.compile_of_journal hj
  obtain ⟨j', hj', -, hbalanced, -⟩ := balanced_iff_edges_level ternary .standard _ rfl accepted
  obtain rfl : j = j' := Except.ok.inj (hj.symm.trans hj')
  exact ⟨⟨_, accepted⟩, hbalanced.mpr level⟩

/-- One arm leaves two values: `putself; branchif L; putnil; jump M; L: putnil; putnil; M: leave`. -/
def uneven : Compiler where
  method :=
    { name := "uneven"
      code := [3, 26, 3, 2, 25, 2, 2, 2, 23]
      stackMax := 3
      params := 0
      locals := 0
      instrs := [⟨0, .putSelf, []⟩, ⟨1, .branchIf, [.offset 3]⟩, ⟨3, .putNil, []⟩,
        ⟨4, .jump, [.offset 2]⟩, ⟨6, .putNil, []⟩, ⟨7, .putNil, []⟩, ⟨8, .leave, []⟩]
      verified := by cbv }
  lowering := .standard

/-- It is accepted, but paths come to its `leave` with one value and with two. -/
theorem uneven_accepted_not_balanced : (∃ k, (uneven.compile .standard).result = .ok k) ∧
    uneven.method.Reaches 8 1 ∧ uneven.method.Reaches 8 2 ∧ ¬ uneven.method.Balanced := by
  have start : uneven.method.Reaches 3 0 ∧ uneven.method.Reaches 6 0 := by
    have h₁ := Method.Reaches.start.step (m := uneven.method) (i := ⟨0, .putSelf, []⟩) (q := 1)
      (by cbv) (by decide)
    exact ⟨h₁.step (i := ⟨1, .branchIf, [.offset 3]⟩) (by cbv) (by decide),
      h₁.step (i := ⟨1, .branchIf, [.offset 3]⟩) (by cbv) (by decide)⟩
  have one : uneven.method.Reaches 8 1 := by
    have h₁ := start.1.step (i := ⟨3, .putNil, []⟩) (q := 4) (by cbv) (by decide)
    exact h₁.step (i := ⟨4, .jump, [.offset 2]⟩) (by cbv) (by decide)
  have two : uneven.method.Reaches 8 2 := by
    have h₁ := start.2.step (i := ⟨6, .putNil, []⟩) (q := 7) (by cbv) (by decide)
    exact h₁.step (i := ⟨7, .putNil, []⟩) (by cbv) (by decide)
  refine ⟨⟨_, by cbv⟩, one, two, ?_⟩
  intro balanced
  have := (balanced 8 ⟨8, .leave, []⟩ (by cbv) 1 one).2 2 two
  omega

end StackFlow
