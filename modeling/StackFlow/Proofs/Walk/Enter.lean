import StackFlow.Proofs.Lowering.Ending
import StackFlow.Proofs.Walk.Journal

/-!
The entry of a block: all that it does to the walk is said once (`Walk.Opens`). Main statement:
entering a block does nothing else (`opens_of_enter`).
-/
namespace StackFlow

open IR (Reg Stmt Builder BlockId Func Terminator dests)

/-- What the edge adds to the values of the phi that it leads to: the top of its stack. -/
def Edge.joins (e : Edge) : List (BlockId × Reg) :=
  if e.dest ≤ e.source then [] else e.stack.top?.toList.map (e.pred, ·)

/-- The stack that the edge brings, without a value that goes to a phi. -/
def Edge.entry (e : Edge) : OperandStack :=
  if e.dest ≤ e.source then e.stack else e.stack.dropTop

namespace Edge

theorem joins_backward (e : Edge) (h : e.dest ≤ e.source) : e.joins = [] := if_pos h

theorem joins_forward (e : Edge) (h : e.source < e.dest) :
    e.joins = e.stack.top?.toList.map (e.pred, ·) := if_neg (Nat.not_le.mpr h)

theorem entry_backward (e : Edge) (h : e.dest ≤ e.source) : e.entry = e.stack := if_pos h

theorem entry_forward (e : Edge) (h : e.source < e.dest) : e.entry = e.stack.dropTop :=
  if_neg (Nat.not_le.mpr h)

theorem entry_max (e : Edge) : e.entry.max = e.stack.max := by
  unfold entry
  split <;> rfl

/-- A value that the edge brings goes to the phi or stays on the stack. -/
theorem isSome_top? (e : Edge) :
    (e.joins ≠ [] ∨ e.entry.top?.isSome : Bool) = e.stack.top?.isSome := by
  rcases Nat.lt_or_ge e.source e.dest with h | h
  · rw [e.joins_forward h, e.entry_forward h]
    cases hs : e.stack.regs <;> simp [OperandStack.top?, OperandStack.dropTop, hs]
  · rw [e.joins_backward h, e.entry_backward h]
    simp

theorem opened_regs (e : Edge) (r : Reg) :
    (if e.joins = [] then e.entry.top?.toList.map (fun _ => r) ++ e.entry.regs.tail
      else r :: e.entry.regs) = e.stack.top?.toList.map (fun _ => r) ++ e.stack.regs.tail := by
  rcases Nat.lt_or_ge e.source e.dest with h | h
  · rw [e.joins_forward h, e.entry_forward h]
    cases hs : e.stack.regs <;> simp [OperandStack.top?, OperandStack.dropTop, hs]
  · rw [e.joins_backward h, e.entry_backward h, if_pos rfl]

end Edge

/-- The phi that defines the top of the stack, where the stack has a top. -/
def OperandStack.phis (s : OperandStack) (sources : List (BlockId × Reg)) : List Stmt :=
  s.top?.toList.map (.phi · sources)

theorem OperandStack.length_dests_phis (s : OperandStack) (sources : List (BlockId × Reg)) :
    (dests (s.phis sources)).length = s.top?.toList.length := by
  cases h : s.top? <;> simp [phis, h, dests, Stmt.dest?]

theorem OperandStack.phis_isPhi (s : OperandStack) (sources : List (BlockId × Reg)) :
    ∀ t ∈ s.phis sources, t.isPhi = true := by
  intro t ht
  obtain ⟨r, -, rfl⟩ := List.mem_map.mp ht
  rfl

/-- Just after entry there is a value on top where one came or one waited. -/
theorem OperandStack.isSome_top?_opened {s opened : OperandStack} {r : Reg}
    {pending : List (BlockId × Reg)}
    (h : opened.regs = if pending = [] then s.top?.toList.map (fun _ => r) ++ s.regs.tail
      else r :: s.regs) :
    opened.top?.isSome = (pending ≠ [] ∨ s.top?.isSome : Bool) := by
  unfold top?
  rw [h]
  by_cases hp : pending = []
  · cases hs : s.regs <;> simp [hp, top?, hs]
  · simp [hp]

namespace Visit

/-- Number of the first register after the phi. -/
def next (v : Visit) : Nat := v.first + v.opened.top?.toList.length

/-- The code after the phi comes from the instructions of the block, and the terminator with the
edges that leave the block from its end. -/
def Laid (m : Method) (x : ExternTable) (t : BlockTable) (trap : Option BlockId) (v : Visit)
    (code : List Stmt) (term : Terminator) : Prop :=
  ∃ straight ending s, code = straight ++ ending ∧ s.max = v.opened.max ∧
    Straights x v.opened.max ((m.instrsIn v.start v.block.last).takeWhile (!·.transfers)) v.next
      v.opened.regs straight s.regs ∧
    Ending m x t trap v.block (v.next + (dests straight).length)
      ((m.instrsIn v.start v.block.last).findSome? fun i => i.opcode.control.map (i, ·))
      s ending term v.edges

namespace Laid

variable {m : Method} {x : ExternTable} {t t' : BlockTable} {trap trap' : Option BlockId} {v : Visit}
  {code : List Stmt} {term : Terminator}

theorem of_sites (h : v.Laid m x t trap code term) (sites : t'.sites = t.sites)
    (keeps : ∀ id, trap = some id → trap' = some id) : v.Laid m x t' trap' code term := by
  obtain ⟨straight, ending, s, hcode, hmax, hstraight, hending⟩ := h
  exact ⟨straight, ending, s, hcode, hmax, hstraight, hending.of_sites sites keeps⟩

theorem numbered (h : v.Laid m x t trap code term) : IR.Numbered v.next code := by
  obtain ⟨straight, ending, s, rfl, -, hstraight, hending⟩ := h
  exact hstraight.numbered.append hending.numbered

/-- With the phi the registers of the block are numbered from its first. -/
theorem numbered_phis (h : v.Laid m x t trap code term)
    (top : v.opened.top? = none ∨ v.opened.top? = some ⟨v.first⟩)
    (sources : List (BlockId × Reg)) :
    IR.Numbered v.first (v.opened.phis sources ++ code) := by
  have hnext := h.numbered
  rw [Visit.next, ← v.opened.length_dests_phis sources] at hnext
  refine IR.Numbered.append ?_ hnext
  unfold OperandStack.phis
  rcases top with top | top
  · rw [top]
    rfl
  · rw [top]
    rfl

theorem isPhi (h : v.Laid m x t trap code term) : ∀ stmt ∈ code, stmt.isPhi = false := by
  obtain ⟨straight, ending, s, rfl, -, hstraight, hending⟩ := h
  intro stmt hm
  rcases List.mem_append.mp hm with hm | hm
  · exact hstraight.isPhi stmt hm
  · exact hending.isPhi stmt hm

/-- What an edge takes along was on the stack on entry or is a result of the code. -/
theorem mem_stack (h : v.Laid m x t trap code term) {e : Edge} (he : e ∈ v.edges) {r : Reg}
    (hr : r ∈ e.stack.regs) : r ∈ v.opened.regs ∨ r ∈ dests code := by
  obtain ⟨straight, ending, s, rfl, -, hstraight, hending⟩ := h
  rcases hstraight.mem (hending.mem_stack he hr) with hm | hm
  · exact .inl hm
  · rw [IR.dests_append]
    exact .inr (List.mem_append_left _ hm)

theorem edge_max (h : v.Laid m x t trap code term) {e : Edge} (he : e ∈ v.edges) :
    e.stack.max = v.opened.max := by
  obtain ⟨straight, ending, s, rfl, hmax, -, hending⟩ := h
  exact (hending.edge he).2.2.1.trans hmax

theorem edge_depth_le (h : v.Laid m x t trap code term) {e : Edge} (he : e ∈ v.edges)
    (hv : v.opened.depth ≤ v.opened.max) : e.stack.depth ≤ v.opened.max := by
  obtain ⟨straight, ending, s, rfl, -, hstraight, hending⟩ := h
  have hle := hstraight.length_le hv
  unfold OperandStack.depth
  rw [(hending.edge he).2.2.2]
  split
  · exact hle
  · rw [List.length_tail]
    omega

theorem edge_pred (h : v.Laid m x t trap code term) {e : Edge} (he : e ∈ v.edges) :
    e.pred = v.handle := by
  obtain ⟨straight, ending, s, -, -, -, hending⟩ := h
  exact (hending.edge he).2.1

/-- All edges that leave the block leave it at one place with one stack. -/
theorem edge_unique (h : v.Laid m x t trap code term) {e e' : Edge} (he : e ∈ v.edges)
    (he' : e' ∈ v.edges) : e.source = e'.source ∧ e.stack = e'.stack := by
  obtain ⟨straight, ending, s, -, -, -, hending⟩ := h
  obtain ⟨hs, -, hm, hr⟩ := hending.edge he
  obtain ⟨hs', -, hm', hr'⟩ := hending.edge he'
  refine ⟨hs.trans hs'.symm, ?_⟩
  have eta (k : OperandStack) : k = ⟨k.regs, k.max⟩ := rfl
  rw [eta e.stack, eta e'.stack, hr, hr', hm, hm']

end Laid

/-- What the table notes of a block that was entered. -/
def close (v : Visit) (b : BasicBlock) : BasicBlock :=
  { b with
    compiled := true
    pending := []
    merge := v.opened.top?
    carries := some v.opened.top?.isSome }

/-- How an edge brings its stack to a block that it enters: a value on top is taken off, and stands in
the block under a register of its own. -/
structure Via (v : Visit) (e : Edge) : Prop where
  via : v.via = some e
  start : v.start = e.dest
  entry : v.entry = e.entry
  pending : v.block.pending = e.joins
  opened : v.opened = { e.stack with
    regs := e.stack.top?.toList.map (fun _ => ⟨v.first⟩) ++ e.stack.regs.tail }

end Visit

namespace Walk

/-- The visit takes the walk from `w` to `w'`: it fills its block with the phi and the code. -/
structure Opens (c : Compiler) (w w' : Walk) (v : Visit) (code : List Stmt) (term : Terminator) :
    Prop where
  found : ∃ b, w.table.block? v.start = some b ∧ b.compiled = false ∧
    (b.last, b.handle) = (v.block.last, v.block.handle)
  table : w'.table = w.table.modify v.start v.close
  filled : ∀ id, w'.builder.func.code id =
    if id = v.handle then w.builder.func.code id ++ (v.opened.phis v.block.pending ++ code)
    else w.builder.func.code id
  exit : ∀ id, id.index < w.builder.func.blocks.length →
    w'.builder.func.exit id = if id = v.handle then term else w.builder.func.exit id
  length : w.builder.func.blocks.length ≤ w'.builder.func.blocks.length
  trap : ∀ id, w'.trap = some id → w.trap = some id ∨
    w.builder.func.blocks.length ≤ id.index ∧ id.index < w'.builder.func.blocks.length ∧
      w'.builder.func.exit id = .unreachable
  keeps : ∀ id, w.trap = some id → w'.trap = some id
  named : ∀ id, w'.trap = some id → w.trap = some id ∨ id ∈ term.successors
  idle : ∀ id, w.builder.func.blocks.length ≤ id.index → w'.trap ≠ some id →
    w'.builder.func.exit id = .missing
  preds : ∀ id p, p ∈ w'.builder.func.preds id ↔ p ∈ w.builder.func.preds id ∨
    p = v.handle ∧ id ∈ term.successors ∧ id.index < w'.builder.func.blocks.length
  nodup : ∀ id, (w.builder.func.preds id).Nodup → (w'.builder.func.preds id).Nodup
  stmts : w'.builder.func.stmts.Perm
    (w.builder.func.stmts ++ (v.opened.phis v.block.pending ++ code))
  bools : w'.builder.func.bools = w.builder.func.bools ++
    (v.opened.phis v.block.pending ++ code).filterMap Stmt.boolDest?
  frame : w'.builder.func.frame = w.builder.func.frame
  first : v.first = w.builder.func.nextReg
  nextReg : w'.builder.func.nextReg = v.next + (dests code).length
  externs : w'.builder.externs = w.builder.externs
  laid : v.Laid c.method w.builder.externs w'.table w'.trap code term

/-- Blocks that are not compiled are as they were in the beginning, and of the others the table
tells whether they joined a value. -/
structure Tidy (m : Method) (w : Walk) : Prop where
  divides : w.table.Divides m
  inside : ∀ b ∈ w.table.blocks, b.handle.index < w.builder.func.blocks.length
  fresh : ∀ b ∈ w.table.blocks, b.compiled = false →
    b.merge = none ∧ b.pending = [] ∧ b.carries = none
  known : ∀ b ∈ w.table.blocks, b.compiled = true →
    b.pending = [] ∧ b.carries = some b.merge.isSome

end Walk

namespace BlockTable

theorem modify_modify (t : BlockTable) (start : Nat) {f g : BasicBlock → BasicBlock}
    (keep : ∀ b, (f b).start = b.start) :
    (t.modify start f).modify start g = t.modify start (fun b => g (f b)) := by
  simp only [modify, List.map_map, mk.injEq]
  apply List.map_congr_left
  intro b _
  by_cases h : b.start = start
  · simp [h, keep]
  · simp [h]

theorem modify_congr {t : BlockTable} {start : Nat} {f g : BasicBlock → BasicBlock}
    (h : ∀ b ∈ t.blocks, b.start = start → f b = g b) : t.modify start f = t.modify start g := by
  simp only [modify, mk.injEq]
  apply List.map_congr_left
  intro b hb
  split
  next hs => exact h b hb hs
  next => rfl

theorem modify_eq_self {t : BlockTable} {start : Nat} {f : BasicBlock → BasicBlock}
    (h : ∀ b ∈ t.blocks, b.start = start → f b = b) : t.modify start f = t := by
  have hm : t.blocks.map (fun b => if b.start = start then f b else b) = t.blocks := by
    conv_rhs => rw [← List.map_id t.blocks]
    apply List.map_congr_left
    intro b hb
    split
    next hs => exact h b hb hs
    next => rfl
  unfold modify
  rw [hm]

end BlockTable

namespace Compiler

theorem join_eq_ok {block : BasicBlock} {s opened : OperandStack} {b b' : Builder}
    {merge : Option Reg} (h : join block s b = .ok (merge, opened, b')) :
    merge = opened.top? ∧ b' = b.append (opened.phis block.pending) ∧ opened.max = s.max ∧
      opened.regs =
        if block.pending = [] then s.top?.toList.map (fun _ => b.free) ++ s.regs.tail
        else b.free :: s.regs := by
  unfold join at h
  obtain ⟨regs, max⟩ := s
  split at h
  next hempty =>
    cases h
    simp only [Bool.and_eq_true, List.isEmpty_iff, OperandStack.isEmpty] at hempty
    obtain ⟨hp, rfl⟩ := hempty
    simp [OperandStack.top?, OperandStack.phis, hp]
  next hsome =>
    dsimp only at h
    rw [Builder.phi_eq_append] at h
    simp only [Bool.and_eq_true, List.isEmpty_iff, OperandStack.isEmpty, not_and] at hsome
    dsimp only at h
    cases hpush : (if block.pending.isEmpty then OperandStack.dropTop ⟨regs, max⟩
        else ⟨regs, max⟩).push b.free with
    | error e => rw [hpush] at h; cases h
    | ok t =>
      rw [hpush] at h
      cases h
      obtain ⟨-, rfl⟩ := OperandStack.push_eq_ok hpush
      by_cases hp : block.pending = []
      · cases regs with
        | nil => exact absurd rfl (hsome hp)
        | cons r regs => simp [hp, OperandStack.top?, OperandStack.phis, OperandStack.dropTop]
      · simp [hp, OperandStack.top?, OperandStack.phis]

variable {c : Compiler} {w w' : Walk} {edges : List Edge}

theorem enter_eq_ok (standard : c.lowering = .standard) {start : Nat} {b : BasicBlock}
    {s : OperandStack} (via : Option Edge) (found : w.table.block? start = some b)
    (site : b.start = start) (fresh : b.compiled = false)
    (h : (c.enter start s w).result = .ok (w', edges)) :
    ∃ opened code term d,
      let v : Visit := ⟨b, via, s, opened, w.builder.func.nextReg, edges⟩
      w.visit? via start s edges = some v ∧ opened.max = s.max ∧
      opened.regs = (if b.pending = [] then s.top?.toList.map (fun _ => ⟨v.first⟩) ++ s.regs.tail
        else ⟨v.first⟩ :: s.regs) ∧
      w'.table = w.table.modify start (fun k =>
        { v.close k with carries := k.carries.or (some opened.top?.isSome) }) ∧
      v.Laid c.method w.builder.externs w'.table w'.trap code term ∧
      (Draft.mk ((w.builder.switchTo b.handle).append (opened.phis b.pending ++ code))
        w.trap).Grows d ∧ w'.toDraft = d.terminate term ∧
      ∀ id, w'.trap = some id → w.trap = some id ∨ id ∈ term.successors := by
  unfold enter at h
  unfold Walk.visit?
  rw [found] at h ⊢
  dsimp only at h ⊢
  rw [if_neg (by simp [fresh])] at h ⊢
  obtain ⟨_, -, h₁⟩ := Traced.result_bind_eq_ok h
  obtain ⟨⟨merge, opened, b₁⟩, hj, h₂⟩ := Traced.result_bind_eq_ok h₁
  obtain ⟨⟨s₂, b₂⟩, hl, h₃⟩ := Traced.result_bind_eq_ok h₂
  obtain ⟨⟨d, new⟩, hf, h₄⟩ := Traced.result_bind_eq_ok h₃
  cases h₄
  clear h h₁ h₂ h₃
  have hjoin : join b s (w.builder.switchTo b.handle) = .ok (merge, opened, b₁) := hj
  rw [hjoin]
  obtain ⟨rfl, rfl, hmax, hregs⟩ := join_eq_ok hjoin
  obtain ⟨straight, hstraight, hmax₂, rfl⟩ := straights_of_lowerAll standard hl
  obtain ⟨ending, term, d₁, hending, hgrows, rfl, hnamed⟩ := ending_of_finish standard rfl hf
  dsimp only at hstraight hmax₂ hending hgrows
  refine ⟨opened, straight ++ ending, term, d₁, rfl, hmax, hregs, rfl, ?_, ?_, rfl, hnamed⟩
  · refine ⟨straight, ending, s₂, rfl, hmax₂, ?_, ?_⟩
    · unfold Visit.next Visit.start
      rw [← opened.length_dests_phis b.pending, site]
      exact hstraight
    · unfold Visit.next Visit.start
      rw [← opened.length_dests_phis b.pending, site]
      exact hending
  · unfold Draft.append at hgrows
    rw [Builder.append_append, Builder.append_append] at hgrows
    exact hgrows

/-- All that entering a block can do that is not compiled, where `g` is what the table noted of the
block just before. -/
theorem opens_of_enter (standard : c.lowering = .standard) {start : Nat}
    {g : BasicBlock → BasicBlock} {b : BasicBlock} {s : OperandStack} (via : Option Edge)
    (tidy : w.Tidy c.method) (found : w.table.block? start = some b) (fresh : b.compiled = false)
    (keep : ∀ k, ((g k).start, (g k).last, (g k).handle, (g k).compiled) =
      (k.start, k.last, k.handle, k.compiled))
    (carries : ∀ x ∈ (g b).carries, x = ((g b).pending ≠ [] ∨ s.top?.isSome : Bool))
    (h : (c.enter start s { w with table := w.table.modify start g }).result = .ok (w', edges)) :
    ∃ v code term,
      ({ w with table := w.table.modify start g } : Walk).visit? via start s edges = some v ∧
      w.Opens c w' v code term ∧
      v.block = g b ∧ v.start = start ∧ v.via = via ∧ v.entry = s ∧ v.edges = edges ∧
      v.opened.max = s.max ∧ v.opened.regs =
        if (g b).pending = [] then s.top?.toList.map (fun _ => ⟨v.first⟩) ++ s.regs.tail
        else ⟨v.first⟩ :: s.regs := by
  have hstart (k : BasicBlock) : (g k).start = k.start := congrArg Prod.fst (keep k)
  have hb := BlockTable.of_block?_eq_some found
  have hfound : (w.table.modify start g).block? start = some (g b) := by
    rw [BlockTable.block?_modify_self _ _ hstart, found]
    rfl
  have hsite : ((g b).last, (g b).handle) = (b.last, b.handle) :=
    congrArg (fun p => (p.2.1, p.2.2.1)) (keep b)
  have hfresh : (g b).compiled = false := (congrArg (·.2.2.2) (keep b)).trans fresh
  obtain ⟨opened, code, term, d, hv, hmax, hregs, htable, hlaid, hgrows, hd, hnamed⟩ :=
    enter_eq_ok standard via hfound ((hstart b).trans hb.2) hfresh h
  refine ⟨_, code, term, hv, ?_, rfl, (hstart b).trans hb.2, rfl, rfl, rfl, hmax, hregs⟩
  have hinside : (g b).handle.index < w.builder.func.blocks.length := by
    rw [(Prod.mk.inj hsite).2]
    exact tidy.inside b hb.1
  have ends := hgrows.ends (d := ⟨w.builder.switchTo (g b).handle, w.trap⟩) hinside term
  rw [← hd] at ends
  exact {
    found := by
      show ∃ k, w.table.block? (g b).start = some k ∧ _
      rw [hstart b, hb.2]
      exact ⟨b, found, fresh, hsite.symm⟩
    table := by
      rw [htable]
      show _ = w.table.modify (g b).start _
      rw [hstart b, hb.2, BlockTable.modify_modify _ _ hstart]
      apply BlockTable.modify_congr
      intro k hk hks
      obtain rfl : k = b :=
        Option.some.inj (((BlockTable.block?_eq_some_iff tidy.divides.nodup).mpr ⟨hk, hks⟩).symm.trans
          found)
      have hnoted : (g k).carries.or (some opened.top?.isSome) = some opened.top?.isSome := by
        cases hc : (g k).carries with
        | none => rfl
        | some x =>
          rw [carries x hc, OperandStack.isSome_top?_opened hregs]
          rfl
      simp only [Visit.close, hnoted, hstart, (Prod.mk.inj hsite).1, (Prod.mk.inj hsite).2]
    filled := ends.filled
    exit := ends.exit
    length := ends.length
    trap := ends.trap
    keeps := ends.keeps
    named := hnamed
    idle := ends.idle
    preds := ends.preds
    nodup := ends.nodup
    stmts := ends.stmts
    bools := ends.bools
    frame := ends.frame
    first := rfl
    nextReg := by
      rw [ends.nextReg, IR.dests_append, List.length_append, ← Nat.add_assoc,
        OperandStack.length_dests_phis]
      rfl
    externs := ends.externs
    laid := hlaid }

end Compiler

end StackFlow
