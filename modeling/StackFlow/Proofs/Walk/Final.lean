import StackFlow.Proofs.Code.Destinations
import StackFlow.Proofs.IR.Run
import StackFlow.Proofs.Walk.Contents

/-!
The function at the end of a compilation: what is in its blocks, where control goes from each, and
which copies a block makes at its end.
-/
namespace StackFlow

open IR (Reg Stmt BlockId Func Terminator dests)

theorem Visit.Via.depth {v : Visit} {e : Edge} (h : v.Via e) : v.opened.depth = e.stack.depth := by
  unfold OperandStack.depth
  rw [h.opened]
  cases hs : e.stack.regs <;> simp [OperandStack.top?, hs]

namespace Visit.Laid

variable {m : Method} {x : ExternTable} {t : BlockTable} {trap : Option BlockId} {v : Visit}
  {code : List Stmt} {term : Terminator}

theorem exists_edge (h : v.Laid m x t trap code term) (divides : t.Divides m) {target : BlockId}
    (ht : target ∈ term.successors) : ∃ e ∈ v.edges, m.blockAt? t trap e.dest = some target := by
  obtain ⟨straight, ending, s, -, -, -, hending⟩ := h
  exact hending.exists_edge (fun _ _ => divides.lt_length) ht

theorem exists_target (h : v.Laid m x t trap code term) (divides : t.Divides m) {e : Edge}
    (he : e ∈ v.edges) : ∃ target ∈ term.successors, m.blockAt? t trap e.dest = some target := by
  obtain ⟨straight, ending, s, -, -, -, hending⟩ := h
  exact hending.exists_target (fun _ _ => divides.lt_length) he

/-- An edge leaves its block at the end or at a transfer, not before the first word. -/
theorem start_le_source (h : v.Laid m x t trap code term) (divides : t.Divides m) {b : BasicBlock}
    (hb : b ∈ t.blocks) (hs : b.start = v.start) (hl : b.last = v.block.last) {e : Edge}
    (he : e ∈ v.edges) : v.start ≤ e.source := by
  obtain ⟨straight, ending, s, -, -, -, hending⟩ := h
  rw [(hending.edge he).1]
  have hbody := divides.body hb
  rw [hs, hl] at hbody
  cases hexit : (m.instrsIn v.start v.block.last).findSome? fun i =>
      i.opcode.control.map (i, ·) with
  | none =>
    show v.start ≤ v.block.last
    have := (divides.after hb).1
    omega
  | some p =>
    obtain ⟨i, hi, hp⟩ := List.exists_of_findSome?_eq_some hexit
    obtain ⟨control, -, rfl⟩ := Option.map_eq_some_iff.mp hp
    exact (hbody.bounds hi).1

end Visit.Laid

namespace Journal

/-- The stack on entry of a block fits. -/
theorem Reached.depth_le {c : Compiler} {x : ExternTable} {j : Journal} (h : j.Reached c x) :
    ∀ v ∈ j.visits, v.opened.max = c.method.stackMax ∧ v.opened.depth ≤ c.method.stackMax := by
  apply h.linked.visit_induction (P := fun v =>
    v.opened.max = c.method.stackMax ∧ v.opened.depth ≤ c.method.stackMax)
  · intro v _ begins
    rw [begins.opened]
    exact ⟨rfl, Nat.zero_le _⟩
  · intro u hu e he _ v _ via ih
    obtain ⟨code, -, hlaid⟩ := h.coded.filled u hu
    have hmax := hlaid.edge_max he
    have hle := hlaid.edge_depth_le he (Nat.le_trans ih.2 (Nat.le_of_eq ih.1.symm))
    refine ⟨?_, ?_⟩
    · rw [via.opened]
      exact hmax.trans ih.1
    · rw [via.depth, ← ih.1]
      exact hle

/-- The stack that an edge carries fits. -/
theorem Reached.edge_depth_le {c : Compiler} {x : ExternTable} {j : Journal} (h : j.Reached c x)
    {e : Edge} (he : e ∈ j.passed ∨ e ∈ j.pending) :
    e.stack.max = c.method.stackMax ∧ e.stack.depth ≤ c.method.stackMax := by
  obtain ⟨u, hu, heu⟩ := (h.linked.edges e).mp he
  obtain ⟨code, -, hlaid⟩ := h.coded.filled u hu
  obtain ⟨hmax, hle⟩ := h.depth_le u hu
  rw [← hmax] at hle
  have hedge := hlaid.edge_depth_le heu hle
  rw [hmax] at hedge
  exact ⟨(hlaid.edge_max heu).trans hmax, hedge⟩

/-- A journal at the end of a compilation. -/
structure Final (c : Compiler) (x : ExternTable) (j : Journal) : Prop where
  reached : j.Reached c x
  begun : j.visits ≠ []
  done : j.pending = []

theorem final_of_journal {c : Compiler} (standard : c.lowering = .standard) {x : ExternTable}
    {j : Journal} (h : c.journal x = .ok j) : j.Final c x := by
  obtain ⟨⟨reached, begun⟩, done⟩ := c.reached_of_journal standard h
  exact ⟨reached, begun, done⟩

namespace Final

variable {c : Compiler} {x : ExternTable} {j : Journal}

theorem divides (h : j.Final c x) : j.walk.table.Divides c.method := h.reached.tidy.divides

theorem handle_ne_entry (h : j.Final c x) : ∀ v ∈ j.visits, v.handle ≠ Func.entry := by
  intro v hv
  obtain ⟨b, hb, -, -, hbh⟩ := h.reached.linked.exists_block hv
  rw [← hbh]
  exact h.divides.inside b hb

theorem edge_passed (h : j.Final c x) {u : Visit} (hu : u ∈ j.visits) {e : Edge}
    (he : e ∈ u.edges) : e ∈ j.passed := by
  rcases (h.reached.linked.edges e).mpr ⟨u, hu, he⟩ with hp | hp
  · exact hp
  · rw [h.done] at hp
    cases hp

theorem start_le_source (h : j.Final c x) {u : Visit} (hu : u ∈ j.visits) {e : Edge}
    (he : e ∈ u.edges) : u.start ≤ e.source := by
  obtain ⟨code, -, hlaid⟩ := h.reached.coded.filled u hu
  obtain ⟨b, hb, hs, hl, -⟩ := h.reached.linked.exists_block hu
  exact hlaid.start_le_source h.divides hb hs hl he

theorem exists_first (h : j.Final c x) : ∃ v ∈ j.visits, v.Begins c.method := by
  obtain ⟨v, rest, hs⟩ := List.exists_cons_of_ne_nil h.begun
  rcases h.reached.linked.chain [] v rest hs with ⟨-, begins⟩ | ⟨u, hu, -⟩
  · exact ⟨v, by rw [hs]; exact List.mem_cons_self, begins⟩
  · cases hu

/-- The table has as compiled the blocks that were entered. -/
theorem compiled_iff (h : j.Final c x) {b : BasicBlock} (hb : b ∈ j.walk.table.blocks) :
    b.compiled = true ↔
      ∃ v ∈ j.visits, (v.start, v.block.last, v.handle) = (b.start, b.last, b.handle) := by
  have found : j.walk.table.block? b.start = some b :=
    (BlockTable.block?_eq_some_iff h.divides.nodup).mpr ⟨hb, rfl⟩
  constructor
  · intro compiled
    obtain ⟨v, hv, hs⟩ := h.reached.linked.entered b hb compiled
    obtain ⟨k, hk, -, -, hsite⟩ := h.reached.linked.visited v hv
    rw [hs, found] at hk
    cases hk
    refine ⟨v, hv, ?_⟩
    rw [hs, hsite]
    rfl
  · rintro ⟨v, hv, hsite⟩
    obtain ⟨k, hk, compiled, -⟩ := h.reached.linked.visited v hv
    rw [(Prod.mk.inj hsite).1, found] at hk
    cases hk
    exact compiled

/-- Where an edge leads inside the code, a block was entered. -/
theorem exists_visit (h : j.Final c x) {u : Visit} (hu : u ∈ j.visits) {e : Edge}
    (he : e ∈ u.edges) {target : BlockId}
    (ht : c.method.blockAt? j.walk.table j.walk.trap e.dest = some target) :
    (∃ v ∈ j.visits, v.start = e.dest ∧ v.handle = target) ∨
      c.method.length ≤ e.dest ∧ j.walk.trap = some target := by
  unfold Method.blockAt? at ht
  split at ht
  · exact .inl (h.reached.linked.exists_visit (h.edge_passed hu he) ht)
  next hout => exact .inr ⟨Nat.le_of_not_lt hout, ht⟩

theorem exists_visit_of_lt (h : j.Final c x) {u : Visit} (hu : u ∈ j.visits) {e : Edge}
    (he : e ∈ u.edges) (hlt : e.dest < c.method.length) : ∃ v ∈ j.visits, v.start = e.dest := by
  obtain ⟨code, -, hlaid⟩ := h.reached.coded.filled u hu
  obtain ⟨target, -, ht⟩ := hlaid.exists_target h.divides he
  rcases h.exists_visit hu he ht with ⟨v, hv, hs, -⟩ | ⟨hle, -⟩
  · exact ⟨v, hv, hs⟩
  · omega

theorem eq_of_pred_eq (h : j.Final c x) {u : Visit} (hu : u ∈ j.visits) {e : Edge}
    (he : e ∈ j.passed) (hp : e.pred = u.handle) : e ∈ u.edges := by
  obtain ⟨w, hw, hew⟩ := (h.reached.linked.edges e).mp (.inl he)
  obtain ⟨code, -, hlaid⟩ := h.reached.coded.filled w hw
  have : w = u := h.reached.linked.eq_of_handle_eq h.divides hw hu ((hlaid.edge_pred hew).symm.trans hp)
  rw [← this]
  exact hew

theorem depth_le (h : j.Final c x) :
    ∀ v ∈ j.visits, v.opened.max = c.method.stackMax ∧ v.opened.depth ≤ c.method.stackMax :=
  h.reached.depth_le

/-- All but the first block are entered along an edge of a block whose registers come before. -/
theorem entered (h : j.Final c x) {v : Visit} (hv : v ∈ j.visits) : v.Begins c.method ∨
    ∃ u ∈ j.visits, ∃ e ∈ u.edges, v.Via e ∧ u.limit j.func ≤ v.first := by
  obtain ⟨before, after, hs⟩ := List.append_of_mem hv
  rcases h.reached.linked.chain before v after hs with ⟨-, begins⟩ | ⟨u, hu, e, he, -, via⟩
  · exact .inl begins
  · right
    have hordered := h.reached.ranged.ordered
    rw [hs, List.pairwise_append] at hordered
    exact ⟨u, by rw [hs]; exact List.mem_append_left _ hu, e, he, via,
      hordered.2.2 u hu v List.mem_cons_self⟩

/-- The end of a block comes from its last instruction. -/
theorem exists_ending (h : j.Final c x) {v : Visit} (hv : v ∈ j.visits) :
    ∃ before i n s code, c.method.instrsIn v.start v.block.last = before ++ [i] ∧
      i.next = v.block.last + 1 ∧
      (i.next = c.method.length ∧ j.walk.table.following? v.block.start = none ∨
        i.next < c.method.length ∧ j.walk.table.following? v.block.start = some i.next) ∧
      Ending c.method x j.walk.table j.walk.trap v.block n (i.opcode.control.map (i, ·)) s code
        (j.func.exit v.handle) v.edges := by
  obtain ⟨code, -, straight, ending, s, -, -, -, hending⟩ := h.reached.coded.filled v hv
  obtain ⟨b, hb, hbs, hbl, -⟩ := h.reached.linked.exists_block hv
  obtain ⟨before, i, hsplit, hnext, hexit, -⟩ := h.divides.exists_last hb
  obtain ⟨-, hafter⟩ := h.divides.after hb
  rw [hbs, hbl] at hsplit hexit
  rw [hexit] at hending
  have hfollowing : j.walk.table.following? v.block.start = j.walk.table.following? b.start :=
    congrArg _ hbs.symm
  refine ⟨before, i, _, s, ending, hsplit, hnext.trans (by rw [hbl]), ?_, hending⟩
  rw [hfollowing, hnext]
  exact hafter.imp_right fun hinside => ⟨hinside.1, hinside.2.2⟩

/-- What an edge takes along was on the stack on entry of the block or is one of its registers. -/
theorem mem_stack (h : j.Final c x) {u : Visit} (hu : u ∈ j.visits) {e : Edge} (he : e ∈ u.edges)
    {r : Reg} (hr : r ∈ e.stack.regs) : r ∈ u.opened.regs ∨ r ∈ dests (j.func.code u.handle) := by
  obtain ⟨code, hcode, hlaid⟩ := h.reached.coded.filled u hu
  rw [hcode, IR.dests_append, List.mem_append]
  exact (hlaid.mem_stack he hr).imp id .inr

/-- The registers of a block are numbered from its phi on. -/
theorem numbered_code (h : j.Final c x) {v : Visit} (hv : v ∈ j.visits) :
    IR.Numbered v.first (j.func.code v.handle) := by
  obtain ⟨code, hcode, hlaid⟩ := h.reached.coded.filled v hv
  rw [hcode]
  exact hlaid.numbered_phis (h.reached.linked.top?_eq hv) _

/-- Different blocks define different registers. -/
theorem eq_of_mem_dests (h : j.Final c x) {u v : Visit} (hu : u ∈ j.visits) (hv : v ∈ j.visits)
    {r : Reg} (hru : r ∈ dests (j.func.code u.handle)) (hrv : r ∈ dests (j.func.code v.handle)) :
    u = v := by
  have hbu := (h.numbered_code hu).bounds hru
  have hbv := (h.numbered_code hv).bounds hrv
  have hordered := h.reached.ranged.ordered
  obtain ⟨before, after, hs⟩ := List.append_of_mem hu
  rw [hs, List.pairwise_append, List.pairwise_cons] at hordered
  rw [hs] at hv
  rcases List.mem_append.mp hv with hv | hv
  · have hle := hordered.2.2 v hv u List.mem_cons_self
    unfold Visit.limit at hle
    omega
  · rcases List.mem_cons.mp hv with rfl | hv
    · rfl
    · have hle := hordered.2.1.1 v hv
      unfold Visit.limit at hle
      omega

/-- The top of the stack on entry is a register of the block. -/
theorem mem_dests_phi (h : j.Final c x) {v : Visit} (hv : v ∈ j.visits) {phi : Reg}
    (hphi : v.opened.top? = some phi) : phi ∈ dests (j.func.code v.handle) := by
  obtain ⟨code, hcode, -⟩ := h.reached.coded.filled v hv
  rw [hcode]
  unfold OperandStack.phis
  rw [hphi]
  exact List.mem_cons_self

/-- A phi takes a copy at the end of each block that brings it a value. -/
theorem mem_copies (h : j.Final c x) {p : BlockId} {d r : Reg} :
    (d, r) ∈ j.func.copies p ↔
      ∃ v ∈ j.visits, v.opened.top? = some d ∧ (p, r) ∈ j.incoming v.start := by
  rw [Func.mem_copies]
  have none {code : List Stmt} (hphi : ∀ s ∈ code, s.isPhi = false) :
      ∀ s ∈ code, (d, r) ∉ s.copies p := by
    intro s hs hm
    have := hphi s hs
    cases s <;> first | cases hm | cases this
  have head {v : Visit} {sources : List (BlockId × Reg)} :
      (∃ s ∈ v.opened.phis sources, (d, r) ∈ s.copies p) ↔
        v.opened.top? = some d ∧ (p, r) ∈ sources := by
    unfold OperandStack.phis
    cases v.opened.top? with
    | none => simp
    | some q =>
      simp only [Option.toList_some, List.map_cons, List.map_nil, List.mem_singleton,
        exists_eq_left, Stmt.copies, List.mem_map, List.mem_filter, decide_eq_true_eq,
        Option.some.injEq, Prod.mk.injEq, Prod.exists]
      constructor
      · rintro ⟨b, r', ⟨hm, rfl⟩, rfl, rfl⟩
        exact ⟨rfl, hm⟩
      · rintro ⟨rfl, hm⟩
        exact ⟨p, r, ⟨hm, rfl⟩, rfl, rfl⟩
  constructor
  · rintro ⟨b, s, hs, hm⟩
    by_cases hb : b = Func.entry
    · rw [hb, h.reached.coded.entry] at hs
      exact absurd hm (none (Lowering.localsCode_isPhi _) s hs)
    · by_cases hv : ∃ v ∈ j.visits, v.handle = b
      · obtain ⟨v, hv, rfl⟩ := hv
        obtain ⟨code, hcode, hlaid⟩ := h.reached.coded.filled v hv
        rw [hcode] at hs
        rcases List.mem_append.mp hs with hs | hs
        · exact ⟨v, hv, head.mp ⟨s, hs, hm⟩⟩
        · exact absurd hm (none hlaid.isPhi s hs)
      · rw [h.reached.coded.elsewhere b hb fun v hv' he => hv ⟨v, hv', he⟩] at hs
        cases hs
  · rintro ⟨v, hv, hd⟩
    obtain ⟨code, hcode, -⟩ := h.reached.coded.filled v hv
    obtain ⟨s, hs, hm⟩ := head.mpr hd
    exact ⟨v.handle, s, by rw [hcode]; exact List.mem_append_left _ hs, hm⟩

/-- The copies at the end of a block bring the top of the stack that it leaves to the phi of each
block that control can go forward to. -/
theorem mem_copies_handle (h : j.Final c x) {u : Visit} (hu : u ∈ j.visits) {d r : Reg} :
    (d, r) ∈ j.func.copies u.handle ↔ ∃ e ∈ u.edges, e.source < e.dest ∧ e.stack.top? = some r ∧
      ∃ v ∈ j.visits, v.start = e.dest ∧ v.opened.top? = some d := by
  rw [h.mem_copies]
  constructor
  · rintro ⟨v, hv, hd, hm⟩
    obtain ⟨e, he, hs, hlt, hp, ht⟩ := mem_incoming.mp hm
    exact ⟨e, h.eq_of_pred_eq hu he hp, by omega, ht, v, hv, hs.symm, hd⟩
  · rintro ⟨e, he, hlt, ht, v, hv, hs, hd⟩
    refine ⟨v, hv, hd, mem_incoming.mpr ⟨e, h.edge_passed hu he, hs.symm, by omega, ?_, ht⟩⟩
    obtain ⟨code, -, hlaid⟩ := h.reached.coded.filled u hu
    exact hlaid.edge_pred he

theorem copies_of_ne (h : j.Final c x) {p : BlockId} (hp : ∀ u ∈ j.visits, u.handle ≠ p) :
    j.func.copies p = [] := by
  rw [List.eq_nil_iff_forall_not_mem]
  rintro ⟨d, r⟩ hm
  obtain ⟨v, hv, -, hin⟩ := h.mem_copies.mp hm
  obtain ⟨e, he, -, -, hpred, -⟩ := mem_incoming.mp hin
  obtain ⟨u, hu, heu⟩ := (h.reached.linked.edges e).mp (.inl he)
  obtain ⟨code, -, hlaid⟩ := h.reached.coded.filled u hu
  exact hp u hu ((hlaid.edge_pred heu).symm.trans hpred)

/-- A block brings one value to a phi. -/
theorem incoming_unique (h : j.Final c x) {start : Nat} {b : BlockId} {r r' : Reg}
    (hr : (b, r) ∈ j.incoming start) (hr' : (b, r') ∈ j.incoming start) : r = r' := by
  obtain ⟨e, he, -, -, hp, ht⟩ := mem_incoming.mp hr
  obtain ⟨e', he', -, -, hp', ht'⟩ := mem_incoming.mp hr'
  obtain ⟨u, hu, heu⟩ := (h.reached.linked.edges e).mp (.inl he)
  obtain ⟨code, -, hlaid⟩ := h.reached.coded.filled u hu
  have heu' := h.eq_of_pred_eq hu he' (hp'.trans (hp.symm.trans (hlaid.edge_pred heu)))
  rw [(hlaid.edge_unique heu heu').2, ht'] at ht
  cases ht
  rfl

/-- The block for a branch past the end of the code is empty. -/
theorem code_trap (h : j.Final c x) {b : BlockId} (hb : j.walk.trap = some b) :
    j.func.code b = [] ∧ j.func.exit b = .unreachable ∧ j.func.copies b = [] := by
  obtain ⟨hexit, hne, -, hhandles⟩ := h.reached.coded.trap b hb
  have hnot : ∀ v ∈ j.visits, v.handle ≠ b := by
    intro v hv
    obtain ⟨k, hk, -, -, hkh⟩ := h.reached.linked.exists_block hv
    rw [← hkh]
    exact hhandles k hk
  exact ⟨h.reached.coded.elsewhere b hne hnot, hexit, h.copies_of_ne hnot⟩

end Final

end Journal

end StackFlow
