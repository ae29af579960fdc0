import StackFlow.Proofs.Code.Blocks
import StackFlow.Proofs.Lowering.Straight

/-!
How a block ends: the code before its terminator, the terminator, and the edges of control flow that
leave it, all said once (`Ending`), and what this changes in the function (`Draft.Ends`). Main
statement: ending a block with the standard lowering does nothing else (`ending_of_finish`).
-/
namespace StackFlow

open IR (Reg Stmt Builder Func BlockId Terminator dests Numbered)

namespace Lowering

/-- Code for a condition on a value, and the register that is true if the branch is taken. -/
def conditionCode (n : Nat) (v : Reg) : BranchKind → List Stmt × Reg
  | .ifTrue => ([.const ⟨n⟩ (~~~Value.nil.bits), .and ⟨n + 1⟩ v ⟨n⟩, .const ⟨n + 2⟩ 0,
      .ne ⟨n + 3⟩ ⟨n + 1⟩ ⟨n + 2⟩], ⟨n + 3⟩)
  | .unlessTrue => ([.const ⟨n⟩ (~~~Value.nil.bits), .and ⟨n + 1⟩ v ⟨n⟩, .const ⟨n + 2⟩ 0,
      .eq ⟨n + 3⟩ ⟨n + 1⟩ ⟨n + 2⟩], ⟨n + 3⟩)
  | .ifNil => ([.const ⟨n⟩ Value.nil.bits, .eq ⟨n + 1⟩ v ⟨n⟩], ⟨n + 1⟩)

theorem condition_of_run {kind : BranchKind} {v r : Reg} {b b' : Builder}
    (h : (standardCondition kind v).run b = .ok (r, b')) :
    r = (conditionCode b.func.nextReg v kind).2 ∧
      b' = b.append (conditionCode b.func.nextReg v kind).1 := by
  have truth {b₁ : Builder} {masked zero : Reg}
      (h : (standardCondition.truth v).run b = .ok ((masked, zero), b₁)) :
      masked = ⟨b.func.nextReg + 1⟩ ∧ zero = ⟨b.func.nextReg + 2⟩ ∧
        b₁ = b.append [.const ⟨b.func.nextReg⟩ (~~~Value.nil.bits),
          .and ⟨b.func.nextReg + 1⟩ v ⟨b.func.nextReg⟩, .const ⟨b.func.nextReg + 2⟩ 0] := by
    obtain ⟨mask, b₁, h₁, ha⟩ := Emit.run_bind_eq_ok h
    obtain ⟨masked, b₂, h₂, hb⟩ := Emit.run_bind_eq_ok ha
    obtain ⟨zero, b₃, h₃, hc⟩ := Emit.run_bind_eq_ok hb
    have p₁ := Emit.run_stmt_eq_ok h₁
    have p₂ := Emit.run_stmt_eq_ok h₂
    have p₃ := Emit.run_stmt_eq_ok h₃
    rw [Builder.const_eq_append] at p₁
    cases p₁
    rw [Builder.and_eq_append] at p₂
    cases p₂
    rw [Builder.const_eq_append] at p₃
    cases p₃
    cases hc
    refine ⟨rfl, rfl, ?_⟩
    rw [Builder.append_append, Builder.append_append]
    rfl
  unfold standardCondition at h
  cases kind with
  | ifTrue =>
    obtain ⟨⟨masked, zero⟩, b₁, h₁, ha⟩ := Emit.run_bind_eq_ok h
    obtain ⟨rfl, rfl, rfl⟩ := truth h₁
    have p₂ := Emit.run_stmt_eq_ok ha
    rw [Builder.ne_eq_append] at p₂
    cases p₂
    refine ⟨rfl, ?_⟩
    rw [Builder.append_append]
    rfl
  | unlessTrue =>
    obtain ⟨⟨masked, zero⟩, b₁, h₁, ha⟩ := Emit.run_bind_eq_ok h
    obtain ⟨rfl, rfl, rfl⟩ := truth h₁
    have p₂ := Emit.run_stmt_eq_ok ha
    rw [Builder.eq_eq_append] at p₂
    cases p₂
    refine ⟨rfl, ?_⟩
    rw [Builder.append_append]
    rfl
  | ifNil =>
    obtain ⟨nil, b₁, h₁, ha⟩ := Emit.run_bind_eq_ok h
    have p₁ := Emit.run_stmt_eq_ok h₁
    have p₂ := Emit.run_stmt_eq_ok ha
    simp only [Builder.value, Builder.const_eq_append] at p₁
    cases p₁
    rw [Builder.eq_eq_append] at p₂
    cases p₂
    refine ⟨rfl, ?_⟩
    rw [Builder.append_append]
    rfl

theorem conditionCode_numbered (n : Nat) (v : Reg) (kind : BranchKind) :
    Numbered n (conditionCode n v kind).1 := by
  cases kind <;> rfl

end Lowering

namespace Draft

/-- Only the block for a branch past the end of the code may have come into being. -/
structure Grows (d d' : Draft) : Prop where
  code : ∀ id, d'.builder.func.code id = d.builder.func.code id
  exit : ∀ id, id.index < d.builder.func.blocks.length →
    d'.builder.func.exit id = d.builder.func.exit id
  length : d.builder.func.blocks.length ≤ d'.builder.func.blocks.length
  trap : ∀ id, d'.trap = some id → d.trap = some id ∨
    d.builder.func.blocks.length ≤ id.index ∧ id.index < d'.builder.func.blocks.length ∧
      d'.builder.func.exit id = .unreachable
  keeps : ∀ id, d.trap = some id → d'.trap = some id
  idle : ∀ id, d.builder.func.blocks.length ≤ id.index → d'.trap ≠ some id →
    d'.builder.func.exit id = .missing
  preds : ∀ id, d'.builder.func.preds id = d.builder.func.preds id
  stmts : d'.builder.func.stmts = d.builder.func.stmts
  frame : d'.builder.func.frame = d.builder.func.frame
  nextReg : d'.builder.func.nextReg = d.builder.func.nextReg
  bools : d'.builder.func.bools = d.builder.func.bools
  current : d'.builder.current = d.builder.current
  externs : d'.builder.externs = d.builder.externs

theorem Grows.refl (d : Draft) : d.Grows d where
  code _ := rfl
  exit _ _ := rfl
  length := Nat.le_refl _
  trap _ h := .inl h
  keeps _ h := h
  idle _ h _ := d.builder.func.exit_of_le h
  preds _ := rfl
  stmts := rfl
  frame := rfl
  nextReg := rfl
  bools := rfl
  current := rfl
  externs := rfl

theorem trapBlock_spec (d : Draft) :
    d.Grows d.trapBlock.2 ∧ d.trapBlock.2.trap = some d.trapBlock.1 := by
  unfold trapBlock
  split
  next trap ht => exact ⟨.refl d, ht⟩
  next hnone =>
    let b₁ := d.builder.newBlock.2.switchTo d.builder.newBlock.1
    have hlen : b₁.func.blocks.length = d.builder.func.blocks.length + 1 := by
      simp [b₁, Builder.newBlock, Builder.switchTo]
    have hcur : b₁.current = ⟨d.builder.func.blocks.length⟩ := rfl
    obtain ⟨hc, he, hl, hn, hb⟩ := b₁.terminate_spec .unreachable
    have hexit := he (by rw [hlen, hcur]; exact Nat.lt_succ_self _)
    have hblock (id : BlockId) : b₁.func.block id = d.builder.func.block id :=
      d.builder.block_newBlock id
    refine ⟨?_, rfl⟩
    exact {
      code := fun id => (hc id).trans (congrArg _ (hblock id))
      exit := fun id hid => by
        refine (hexit id).trans ?_
        rw [if_neg (fun h => by rw [h, hcur] at hid; exact Nat.lt_irrefl _ hid)]
        exact congrArg _ (hblock id)
      length := by
        show _ ≤ (b₁.terminate .unreachable).func.blocks.length
        omega
      trap := fun id h => by
        cases h
        refine .inr ⟨Nat.le_refl _, ?_, ?_⟩
        · show _ < (b₁.terminate .unreachable).func.blocks.length
          rw [hl, hlen]
          exact Nat.lt_succ_self _
        · exact (hexit _).trans (if_pos rfl)
      keeps := fun id h => by rw [hnone] at h; cases h
      idle := fun id hid hne => by
        refine (hexit id).trans ?_
        rw [if_neg fun h => hne (congrArg some (h.trans hcur).symm)]
        exact (congrArg _ (hblock id)).trans (d.builder.func.exit_of_le hid)
      preds := fun id => (b₁.preds_terminate .unreachable id).trans (congrArg _ (hblock id))
      stmts := (b₁.stmts_terminate .unreachable).1.trans d.builder.stmts_newBlock
      frame := (b₁.stmts_terminate .unreachable).2
      nextReg := hn
      bools := hb
      current := rfl
      externs := rfl }

theorem emit_eq_ok {α : Type} {d d' : Draft} {x : Emit α} {a : α} (h : d.emit x = .ok (a, d')) :
    ∃ b, x.run d.builder = .ok (a, b) ∧ d' = { d with builder := b } := by
  unfold emit at h
  cases hx : x.run d.builder with
  | error e => rw [hx] at h; cases h
  | ok p => rw [hx] at h; cases h; exact ⟨_, rfl, rfl⟩

/-- The draft with code added to the current block. -/
def append (d : Draft) (code : List Stmt) : Draft := { d with builder := d.builder.append code }

@[simp] theorem append_nil (d : Draft) : d.append [] = d := by simp [append]

theorem Grows.append_nil (d : Draft) : (d.append []).Grows d := by
  rw [d.append_nil]
  exact .refl d

/-- The current block has got the code and the end, and nothing else has changed but that the block for
a branch past the end of the code may have come into being. -/
structure Ends (d d' : Draft) (code : List Stmt) (term : Terminator) : Prop where
  filled : ∀ id, d'.builder.func.code id =
    if id = d.builder.current then d.builder.func.code id ++ code else d.builder.func.code id
  exit : ∀ id, id.index < d.builder.func.blocks.length →
    d'.builder.func.exit id = if id = d.builder.current then term else d.builder.func.exit id
  length : d.builder.func.blocks.length ≤ d'.builder.func.blocks.length
  trap : ∀ id, d'.trap = some id → d.trap = some id ∨
    d.builder.func.blocks.length ≤ id.index ∧ id.index < d'.builder.func.blocks.length ∧
      d'.builder.func.exit id = .unreachable
  keeps : ∀ id, d.trap = some id → d'.trap = some id
  idle : ∀ id, d.builder.func.blocks.length ≤ id.index → d'.trap ≠ some id →
    d'.builder.func.exit id = .missing
  preds : ∀ id p, p ∈ d'.builder.func.preds id ↔ p ∈ d.builder.func.preds id ∨
    p = d.builder.current ∧ id ∈ term.successors ∧ id.index < d'.builder.func.blocks.length
  nodup : ∀ id, (d.builder.func.preds id).Nodup → (d'.builder.func.preds id).Nodup
  stmts : d'.builder.func.stmts.Perm (d.builder.func.stmts ++ code)
  bools : d'.builder.func.bools = d.builder.func.bools ++ code.filterMap Stmt.boolDest?
  frame : d'.builder.func.frame = d.builder.func.frame
  nextReg : d'.builder.func.nextReg = d.builder.func.nextReg + (dests code).length
  externs : d'.builder.externs = d.builder.externs

theorem Grows.ends {d d' : Draft} {code : List Stmt} (h : (d.append code).Grows d')
    (inside : d.builder.current.index < d.builder.func.blocks.length) (term : Terminator) :
    d.Ends (d'.terminate term) code term := by
  obtain ⟨hcode, hexit, hlength, hnextReg, hbools⟩ := d'.builder.terminate_spec term
  obtain ⟨hstmts, hframe⟩ := d'.builder.stmts_terminate term
  have hcurrent : d'.builder.current = d.builder.current := h.current
  have hgrown : d.builder.func.blocks.length ≤ d'.builder.func.blocks.length :=
    Nat.le_trans (Nat.le_of_eq (d.builder.append_length code).symm) h.length
  have hin : d'.builder.current.index < d'.builder.func.blocks.length := by
    rw [hcurrent]
    exact Nat.lt_of_lt_of_le inside hgrown
  have hnew {id : BlockId} (hid : d.builder.func.blocks.length ≤ id.index) :
      (d'.builder.terminate term).func.exit id = d'.builder.func.exit id := by
    rw [hexit hin, hcurrent, if_neg]
    rintro rfl
    exact Nat.lt_irrefl _ (Nat.lt_of_lt_of_le inside hid)
  exact {
    filled := fun id => by
      refine (hcode id).trans ((h.code id).trans ?_)
      exact d.builder.code_append code id inside
    exit := fun id hid => by
      refine (hexit hin id).trans ?_
      rw [hcurrent, h.exit id (Nat.lt_of_lt_of_eq hid (d.builder.append_length code).symm)]
      exact if_congr Iff.rfl rfl (d.builder.exit_append code id)
    length := Nat.le_trans hgrown (Nat.le_of_eq hlength.symm)
    trap := fun id htrap => by
      rcases h.trap id htrap with hold | ⟨hle, hlt, hun⟩
      · exact .inl hold
      · have hle' := Nat.le_trans (Nat.le_of_eq (d.builder.append_length code).symm) hle
        exact .inr ⟨hle', Nat.lt_of_lt_of_eq hlt hlength.symm, (hnew hle').trans hun⟩
    keeps := h.keeps
    idle := fun id hid hne => by
      refine (hnew hid).trans (h.idle id ?_ hne)
      exact Nat.le_trans (Nat.le_of_eq (d.builder.append_length code)) hid
    preds := fun id p => by
      refine ((d'.builder.mem_preds_terminate term id).1 p).trans ?_
      rw [h.preds, hcurrent, ← hlength]
      exact or_congr_left (by rw [append, Builder.preds_append])
    nodup := fun id hnodup => by
      refine (d'.builder.mem_preds_terminate term id).2 ?_
      rw [h.preds, append, Builder.preds_append]
      exact hnodup
    stmts := by
      refine (List.Perm.of_eq (hstmts.trans h.stmts)).trans ?_
      exact d.builder.stmts_append_perm code inside
    bools := hbools.trans h.bools
    frame := hframe.trans h.frame
    nextReg := hnextReg.trans h.nextReg
    externs := h.externs }

end Draft

/-- Where control goes that leaves a block for the position: past the end of the code to the trap. -/
def Method.blockAt? (m : Method) (t : BlockTable) (trap : Option BlockId) (p : Nat) :
    Option BlockId :=
  if p < m.length then t.handle? p else trap

theorem Method.blockAt?_of_handle? {m : Method} {t : BlockTable} {trap : Option BlockId} {p : Nat}
    {target : BlockId} (inside : t.handle? p = some target → p < m.length)
    (found : t.handle? p = some target) : m.blockAt? t trap p = some target := by
  unfold blockAt?
  rw [if_pos (inside found), found]

/-- The end of the block `b` of the table, whose register code is numbered from `n` on and whose stack
is `s` before its last instruction, the transfer if there is one. -/
inductive Ending (m : Method) (x : ExternTable) (t : BlockTable) (trap : Option BlockId)
    (b : BasicBlock) (n : Nat) :
    Option (Instr × Control) → OperandStack → List Stmt → Terminator → List Edge → Prop
  | jump {i : Instr} {dest : Nat} {target : BlockId} {s : OperandStack}
      (leads : i.jumpTarget? = some dest) (found : t.handle? dest = some target) :
      Ending m x t trap b n (some (i, .jump)) s [] (.jump target) [⟨i.position, b.handle, dest, s⟩]
  | branch {i : Instr} {kind : BranchKind} {v : Reg} {s : OperandStack} {dest : Nat}
      {thenTo elseTo : BlockId} (leads : i.jumpTarget? = some dest)
      (found : t.handle? dest = some thenTo) (next : m.blockAt? t trap i.next = some elseTo) :
      Ending m x t trap b n (some (i, .branch kind)) { s with regs := v :: s.regs }
        (Lowering.conditionCode n v kind).1
        (.branch (Lowering.conditionCode n v kind).2 thenTo elseTo)
        (Compiler.edges i b.handle s [i.next, dest])
  | dispatch {i : Instr} {key : Reg} {s : OperandStack} {cases : List (Value × Nat)} {other : Nat}
      {targets : List (Word × BlockId)} {otherTo : BlockId}
      (table : i.dispatchTable? = some (cases, other))
      (found : List.Forall₂ (fun (k, dest) (w, target) => w = k.bits ∧ t.handle? dest = some target)
        cases targets)
      (foundOther : t.handle? other = some otherTo) :
      Ending m x t trap b n (some (i, .dispatch)) { s with regs := key :: s.regs } []
        (.switch key targets otherTo)
        (Compiler.edges i b.handle s (other :: cases.map Prod.snd))
  | leave {i : Instr} {v : Reg} {max : Nat} :
      Ending m x t trap b n (some (i, .exit .leave)) ⟨[v], max⟩ [] (.ret v) []
  | throw {i : Instr} {v : Reg} {max : Nat}
      (known : ∃ e, x.resolve? ExternTable.throwName 2 = some e) :
      Ending m x t trap b n (some (i, .exit .throw)) ⟨[v], max⟩
        [.const ⟨n⟩ (i.word 0), .call ⟨n + 1⟩ ExternTable.throwName [⟨n⟩, v]] (.ret ⟨n + 1⟩) []
  | fall {next : Nat} {target : BlockId} {s : OperandStack}
      (follows : t.following? b.start = some next) (found : t.handle? next = some target) :
      Ending m x t trap b n none s [] (.jump target) [⟨b.last, b.handle, next, s⟩]
  | stop {s : OperandStack} (follows : t.following? b.start = none) :
      Ending m x t trap b n none s [] .unreachable []

private theorem exists_of_forall₂ {α β : Type} {R : α → β → Prop} {as : List α} {bs : List β}
    (h : List.Forall₂ R as bs) {b : β} (hb : b ∈ bs) : ∃ a ∈ as, R a b := by
  induction h with
  | nil => cases hb
  | cons hr _ ih =>
    rcases List.mem_cons.mp hb with rfl | hb
    · exact ⟨_, List.mem_cons_self, hr⟩
    · obtain ⟨a, ha, h⟩ := ih hb
      exact ⟨a, List.mem_cons_of_mem _ ha, h⟩

namespace Ending

variable {m : Method} {x : ExternTable} {t t' : BlockTable} {trap trap' : Option BlockId}
  {b : BasicBlock} {n : Nat} {exit? : Option (Instr × Control)} {s : OperandStack}
  {code : List Stmt} {term : Terminator} {edges : List Edge}

/-- It stays the end of the block when the table notes more of its blocks. -/
theorem of_sites (h : Ending m x t trap b n exit? s code term edges) (sites : t'.sites = t.sites)
    (keeps : ∀ id, trap = some id → trap' = some id) :
    Ending m x t' trap' b n exit? s code term edges := by
  have handle := BlockTable.handle?_congr sites
  have following := BlockTable.following?_congr sites
  cases h with
  | jump leads found => exact .jump leads (by rw [handle]; exact found)
  | branch leads found next =>
    refine .branch leads (by rw [handle]; exact found) ?_
    unfold Method.blockAt? at next ⊢
    split
    next inside => rw [if_pos inside] at next; rw [handle]; exact next
    next outside => rw [if_neg outside] at next; exact keeps _ next
  | dispatch table found foundOther =>
    refine .dispatch table ?_ (by rw [handle]; exact foundOther)
    simpa only [handle] using found
  | leave => exact .leave
  | throw known => exact .throw known
  | fall follows found => exact .fall (by rw [following]; exact follows) (by rw [handle]; exact found)
  | stop follows => exact .stop (by rw [following]; exact follows)

theorem numbered (h : Ending m x t trap b n exit? s code term edges) : Numbered n code := by
  cases h with
  | branch => exact Lowering.conditionCode_numbered _ _ _
  | _ => rfl

theorem isPhi (h : Ending m x t trap b n exit? s code term edges) :
    ∀ stmt ∈ code, stmt.isPhi = false := by
  cases h with
  | @branch _ kind => cases kind <;> simp [Lowering.conditionCode, Stmt.isPhi]
  | _ => simp [Stmt.isPhi]

/-- All edges out of the block carry the stack that the transfer leaves. -/
theorem edge (h : Ending m x t trap b n exit? s code term edges) {e : Edge} (he : e ∈ edges) :
    e.source = exit?.elim b.last (·.1.position) ∧ e.pred = b.handle ∧ e.stack.max = s.max ∧
      e.stack.regs = if exit?.elim .jump (·.2) = .jump then s.regs else s.regs.tail := by
  cases h with
  | jump => rw [List.mem_singleton.mp he]; exact ⟨rfl, rfl, rfl, rfl⟩
  | branch =>
    obtain ⟨p, -, rfl⟩ := List.mem_map.mp he
    exact ⟨rfl, rfl, rfl, rfl⟩
  | dispatch =>
    obtain ⟨p, -, rfl⟩ := List.mem_map.mp he
    exact ⟨rfl, rfl, rfl, rfl⟩
  | leave => cases he
  | throw => cases he
  | fall => rw [List.mem_singleton.mp he]; exact ⟨rfl, rfl, rfl, rfl⟩
  | stop => cases he

/-- A transfer has an edge to each place where it can lead. -/
theorem dests_eq {i : Instr} {control : Control} (transfers : i.opcode.control = some control)
    (h : Ending m x t trap b n (some (i, control)) s code term edges) :
    edges.map (·.dest) = i.successors := by
  unfold Instr.successors
  rw [transfers]
  cases h with
  | jump leads => simp [leads]
  | branch leads => simp [leads, Compiler.edges]
  | dispatch table => simp [table, Compiler.edges, Function.comp_def]
  | leave => rfl
  | throw => rfl

/-- A block without a transfer has an edge to the next one. -/
theorem dests_eq_following (h : Ending m x t trap b n none s code term edges) :
    edges.map (·.dest) = (t.following? b.start).toList := by
  cases h with
  | fall follows => rw [follows]; rfl
  | stop follows => rw [follows]; rfl

/-- A transfer takes from the stack what its effect says, and an exit takes the only value. -/
theorem depth_eq {i : Instr} {control : Control} (transfers : i.opcode.control = some control)
    (h : Ending m x t trap b n (some (i, control)) s code term edges) :
    i.effect.1 ≤ s.depth ∧ i.effect.2 = 0 ∧ (∀ e ∈ edges, e.stack.depth + i.effect.1 = s.depth) ∧
      ∀ kind, control = .exit kind → s.depth = 1 := by
  have heffect := Instr.effect_of_control transfers
  have hstack (e : Edge) (he : e ∈ edges) := (h.edge he).2.2.2
  unfold OperandStack.depth
  rw [heffect]
  cases h with
  | jump => exact ⟨Nat.zero_le _, rfl, fun e he => by simp [hstack e he], nofun⟩
  | branch => exact ⟨by simp, rfl, fun e he => by simp [hstack e he], nofun⟩
  | dispatch => exact ⟨by simp, rfl, fun e he => by simp [hstack e he], nofun⟩
  | leave => exact ⟨by simp, rfl, nofun, fun _ _ => rfl⟩
  | throw => exact ⟨by simp, rfl, nofun, fun _ _ => rfl⟩

/-- Control goes from the block along one of the edges. -/
theorem exists_edge (h : Ending m x t trap b n exit? s code term edges)
    (targets : ∀ p target, t.handle? p = some target → p < m.length) {target : BlockId}
    (ht : target ∈ term.successors) :
    ∃ e ∈ edges, m.blockAt? t trap e.dest = some target := by
  have inside {p : Nat} {target : BlockId} (hp : t.handle? p = some target) :
      m.blockAt? t trap p = some target := Method.blockAt?_of_handle? (targets p target) hp
  cases h with
  | jump _ found =>
    cases List.mem_singleton.mp ht
    exact ⟨_, List.mem_singleton_self _, inside found⟩
  | branch _ found next =>
    rcases List.mem_cons.mp ht with rfl | ht
    · exact ⟨_, List.mem_map_of_mem (List.mem_cons_of_mem _ (List.mem_singleton_self _)),
        inside found⟩
    · cases List.mem_singleton.mp ht
      exact ⟨_, List.mem_map_of_mem List.mem_cons_self, next⟩
  | dispatch _ found foundOther =>
    rcases List.mem_cons.mp ht with rfl | ht
    · exact ⟨_, List.mem_map_of_mem List.mem_cons_self, inside foundOther⟩
    · obtain ⟨⟨w, target⟩, hp, rfl⟩ := List.mem_map.mp ht
      obtain ⟨⟨k, dest⟩, hk, -, hd⟩ := exists_of_forall₂ found hp
      exact ⟨_, List.mem_map_of_mem (List.mem_cons_of_mem _ (List.mem_map_of_mem hk)), inside hd⟩
  | leave => cases ht
  | throw => cases ht
  | fall _ found =>
    cases List.mem_singleton.mp ht
    exact ⟨_, List.mem_singleton_self _, inside found⟩
  | stop => cases ht

theorem exists_target (h : Ending m x t trap b n exit? s code term edges)
    (targets : ∀ p target, t.handle? p = some target → p < m.length) {e : Edge} (he : e ∈ edges) :
    ∃ target ∈ term.successors, m.blockAt? t trap e.dest = some target := by
  have inside {p : Nat} {target : BlockId} (hp : t.handle? p = some target) :
      m.blockAt? t trap p = some target := Method.blockAt?_of_handle? (targets p target) hp
  cases h with
  | jump _ found =>
    cases List.mem_singleton.mp he
    exact ⟨_, List.mem_singleton_self _, inside found⟩
  | branch _ found next =>
    obtain ⟨p, hp, rfl⟩ := List.mem_map.mp he
    rcases List.mem_cons.mp hp with rfl | hp
    · exact ⟨_, List.mem_cons_of_mem _ (List.mem_singleton_self _), next⟩
    · cases List.mem_singleton.mp hp
      exact ⟨_, List.mem_cons_self, inside found⟩
  | dispatch _ found foundOther =>
    obtain ⟨p, hp, rfl⟩ := List.mem_map.mp he
    rcases List.mem_cons.mp hp with rfl | hp
    · exact ⟨_, List.mem_cons_self, inside foundOther⟩
    · obtain ⟨⟨k, dest⟩, hk, rfl⟩ := List.mem_map.mp hp
      obtain ⟨⟨w, target⟩, ht, -, hd⟩ := exists_of_forall₂ found.flip hk
      exact ⟨_, List.mem_cons_of_mem _ (List.mem_map_of_mem ht), inside hd⟩
  | leave => cases he
  | throw => cases he
  | fall _ found =>
    cases List.mem_singleton.mp he
    exact ⟨_, List.mem_singleton_self _, inside found⟩
  | stop => cases he

/-- A block that returns ends with an exit, which takes the only value of the stack. -/
theorem of_ret {r : Reg} (h : Ending m x t trap b n exit? s code (.ret r) edges) :
    ∃ i v, s.regs = [v] ∧ (exit? = some (i, .exit .leave) ∧ code = [] ∧ r = v ∨
      exit? = some (i, .exit .throw) ∧ r = ⟨n + 1⟩ ∧
        code = [.const ⟨n⟩ (i.word 0), .call ⟨n + 1⟩ ExternTable.throwName [⟨n⟩, v]]) := by
  cases h with
  | leave => exact ⟨_, _, rfl, .inl ⟨rfl, rfl, rfl⟩⟩
  | throw => exact ⟨_, _, rfl, .inr ⟨rfl, rfl, rfl⟩⟩

theorem mem_stack (h : Ending m x t trap b n exit? s code term edges) {e : Edge} (he : e ∈ edges)
    {r : Reg} (hr : r ∈ e.stack.regs) : r ∈ s.regs := by
  rw [(h.edge he).2.2.2] at hr
  split at hr
  · exact hr
  · exact List.mem_of_mem_tail hr

end Ending

namespace BlockTable

theorem handle_eq_ok {t : BlockTable} {start source : Nat} {h : BlockId}
    (hok : t.handle start source = .ok h) : t.handle? start = some h := by
  unfold handle at hok
  unfold handle?
  split at hok
  next b hb => cases hok; rw [hb]; rfl
  next => cases hok

end BlockTable

theorem Instr.destination_eq_ok {i : Instr} {dest : Nat} (h : i.destination = .ok dest) :
    i.jumpTarget? = some dest := by
  unfold Instr.destination at h
  split at h
  next d hd => cases h; exact hd
  next => cases h

private theorem forall₂_of_mapM {t : BlockTable} {position : Nat} {cases : List (Value × Nat)}
    {targets : List (Word × BlockId)}
    (h : cases.mapM (fun (k, dest) =>
      (t.handle dest position).map fun handle => (k.bits, handle)) = .ok targets) :
    List.Forall₂ (fun (k, dest) (w, target) => w = k.bits ∧ t.handle? dest = some target)
      cases targets := by
  induction cases generalizing targets with
  | nil => cases h; exact .nil
  | cons p rest ih =>
    rw [List.mapM_cons] at h
    obtain ⟨target, h₁, ha⟩ := bind_eq_ok h
    obtain ⟨more, h₂, hb⟩ := bind_eq_ok ha
    cases hb
    refine .cons ?_ (ih h₂)
    obtain ⟨k, dest⟩ := p
    dsimp only at h₁
    cases hh : t.handle dest position with
    | error e => rw [hh] at h₁; cases h₁
    | ok handle =>
      rw [hh] at h₁
      cases h₁
      exact ⟨rfl, BlockTable.handle_eq_ok hh⟩

namespace Compiler

variable {c : Compiler} {t : BlockTable} {d d' : Draft} {edges : List Edge}

theorem nextBlock_eq_ok {i : Instr} {target : BlockId}
    (h : c.nextBlock t i d = .ok (target, d')) :
    d.Grows d' ∧ c.method.blockAt? t d'.trap i.next = some target ∧
      ∀ id, d'.trap = some id → d.trap = some id ∨ id = target := by
  unfold nextBlock at h
  unfold Method.blockAt?
  split at h
  next inside =>
    rw [if_pos inside]
    cases hh : t.handle i.next i.position with
    | error e => rw [hh] at h; cases h
    | ok handle =>
      rw [hh] at h
      cases h
      exact ⟨.refl d, BlockTable.handle_eq_ok hh, fun _ => .inl⟩
  next outside =>
    rw [if_neg outside]
    obtain ⟨hgrows, htrap⟩ := d.trapBlock_spec
    rw [Except.ok.inj h] at hgrows htrap
    exact ⟨hgrows, htrap, fun id hid => .inr (Option.some.inj (hid.symm.trans htrap))⟩

/-- All that ending a block with its transfer can do. -/
theorem ending_of_transfer (standard : c.lowering = .standard) {b : BasicBlock} {i : Instr}
    {control : Control} {s : OperandStack} (current : d.builder.current = b.handle)
    (h : c.transfer t i s d control = .ok (d', edges)) :
    ∃ code term g, Ending c.method d.builder.externs t d'.trap b d.builder.func.nextReg
      (some (i, control)) s code term edges ∧ (d.append code).Grows g ∧ d' = g.terminate term ∧
      ∀ id, d'.trap = some id → d.trap = some id ∨ id ∈ term.successors := by
  unfold transfer at h
  cases control with
  | jump =>
    obtain ⟨dest, h₁, ha⟩ := bind_eq_ok h
    obtain ⟨target, h₂, hb⟩ := bind_eq_ok ha
    cases hb
    rw [current]
    exact ⟨[], _, d, .jump (Instr.destination_eq_ok h₁) (BlockTable.handle_eq_ok h₂),
      .append_nil d, rfl, fun _ => .inl⟩
  | branch kind =>
    obtain ⟨⟨v, s₁⟩, h₁, ha⟩ := bind_eq_ok h
    obtain ⟨⟨cond, d₁⟩, h₂, hb⟩ := bind_eq_ok ha
    obtain ⟨dest, h₃, hc⟩ := bind_eq_ok hb
    obtain ⟨thenTo, h₄, hd⟩ := bind_eq_ok hc
    obtain ⟨⟨elseTo, d₂⟩, h₅, he⟩ := bind_eq_ok hd
    cases he
    obtain rfl := OperandStack.pop_eq_ok h₁
    obtain ⟨b₁, hrun, rfl⟩ := Draft.emit_eq_ok h₂
    rw [standard] at hrun
    obtain ⟨rfl, rfl⟩ := Lowering.condition_of_run hrun
    obtain ⟨hgrows, hnext, hnew⟩ := nextBlock_eq_ok h₅
    refine ⟨_, _, d₂, ?_, hgrows, rfl, ?_⟩
    · simp only [Builder.append_current, current]
      exact .branch (Instr.destination_eq_ok h₃) (BlockTable.handle_eq_ok h₄) hnext
    · intro id hid
      refine (hnew id hid).imp_right ?_
      rintro rfl
      exact List.mem_cons_of_mem _ (List.mem_singleton_self _)
  | dispatch =>
    obtain ⟨⟨key, s₁⟩, h₁, ha⟩ := bind_eq_ok h
    dsimp only at ha
    split at ha
    next => cases ha
    next cases other htable =>
      obtain ⟨targets, h₂, hb⟩ := bind_eq_ok ha
      obtain ⟨otherTo, h₃, hc⟩ := bind_eq_ok hb
      cases hc
      obtain rfl := OperandStack.pop_eq_ok h₁
      rw [current]
      exact ⟨[], _, d, .dispatch htable (forall₂_of_mapM h₂) (BlockTable.handle_eq_ok h₃),
        .append_nil d, rfl, fun _ => .inl⟩
  | exit kind =>
    dsimp only at h
    split at h
    next => cases h
    next hdepth =>
      obtain ⟨⟨v, s₁⟩, h₁, ha⟩ := bind_eq_ok h
      obtain ⟨⟨r, d₁⟩, h₂, hb⟩ := bind_eq_ok ha
      cases hb
      obtain rfl := OperandStack.pop_eq_ok h₁
      obtain ⟨b₁, hrun, rfl⟩ := Draft.emit_eq_ok h₂
      have hnil : s₁.regs = [] := by
        have hone : (v :: s₁.regs).length = 1 := not_not.mp hdepth
        simpa using hone
      rw [hnil]
      rw [standard] at hrun
      cases kind with
      | leave =>
        cases hrun
        exact ⟨[], _, d, .leave, .append_nil d, rfl, fun _ => .inl⟩
      | throw =>
        obtain ⟨state, b₂, h₃, hc⟩ := Emit.run_bind_eq_ok hrun
        have p₃ := Emit.run_stmt_eq_ok h₃
        rw [Builder.const_eq_append] at p₃
        cases p₃
        obtain ⟨known, rfl, rfl⟩ := Emit.run_call_eq_ok hc
        refine ⟨_, _, d.append _, .throw known, .refl _, ?_, fun _ => .inl⟩
        rw [Builder.append_append]
        rfl

/-- All that ending a block can do. -/
theorem ending_of_finish (standard : c.lowering = .standard) {b : BasicBlock}
    {exit? : Option (Instr × Control)} {s : OperandStack} (current : d.builder.current = b.handle)
    (h : (c.finish t b exit? s d).result = .ok (d', edges)) :
    ∃ code term g, Ending c.method d.builder.externs t d'.trap b d.builder.func.nextReg exit? s code
      term edges ∧ (d.append code).Grows g ∧ d' = g.terminate term ∧
      ∀ id, d'.trap = some id → d.trap = some id ∨ id ∈ term.successors := by
  unfold finish at h
  split at h
  next i control =>
    obtain ⟨_, -, ha⟩ := Traced.result_bind_eq_ok h
    exact ending_of_transfer standard current ha
  next =>
    split at h
    next next hfollows =>
      obtain ⟨target, h₁, ha⟩ := bind_eq_ok h
      cases ha
      rw [current]
      exact ⟨[], _, d, .fall hfollows (BlockTable.handle_eq_ok h₁), .append_nil d, rfl, fun _ => .inl⟩
    next hfollows =>
      cases h
      exact ⟨[], _, d, .stop hfollows, .append_nil d, rfl, fun _ => .inl⟩

end Compiler

end StackFlow
