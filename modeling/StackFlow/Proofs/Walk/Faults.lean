import Mathlib
import StackFlow.Proofs.Lowering.Faults
import StackFlow.Proofs.Walk.Arrivals

/-!
How a compilation fails: the prologue never does, an edge is refused only where another path brings
what this one lacks (`Journal.Reached.exhibits_of_arrive`), and a block only at an instruction that
is refused with the stack that a path brings (`Compiler.stuck_of_enter`). Main statement: the code
shows every error that is reported (`exhibits_of_compile_error`).
-/
namespace StackFlow

open IR (Reg Stmt Builder BlockId Func)

/-- The depth of an edge's stack, of which a value may go to a phi. -/
theorem Edge.depth_entry (e : Edge) :
    (if e.joins = [] then e.entry.depth else e.entry.depth + 1) = e.stack.depth := by
  have h := congrArg List.length (e.opened_regs ⟨0⟩)
  unfold OperandStack.depth
  cases hs : e.stack.regs <;> cases he : e.entry.regs <;> split at h <;>
    simp_all [OperandStack.top?]

theorem BlockTable.following?_mem_starts {t : BlockTable} {p next : Nat}
    (h : t.following? p = some next) : next ∈ t.starts := by
  obtain ⟨_, -, h₁⟩ := Option.bind_eq_some_iff.mp h
  obtain ⟨b, hb, he⟩ := Option.bind_eq_some_iff.mp h₁
  cases he
  have hmem := (List.takeWhile_prefix _).subset (List.mem_of_getLast? hb)
  exact List.mem_map_of_mem (by simpa using hmem)

namespace Lowering

/-- Setting up the locals does not fail. -/
theorem run_initLocals_ne_error (m : Method) (b : Builder) (e : CompileError) :
    (initLocals m).run b ≠ .error e := by
  have run : ∀ (is : List Nat) (b : Builder), (is.forM (fun i => do
      let v ← Emit.stmt (if i < m.params then (·.arg i) else (·.value .nil))
      Emit.storeLocal i v) : Emit Unit).run b ≠ .error e := by
    intro is
    induction is with
    | nil => nofun
    | cons i is ih =>
      intro b h
      rcases Emit.run_bind_eq_error h with h₁ | ⟨_, b₁, -, h₂⟩
      · rcases Emit.run_bind_eq_error h₁ with h₃ | ⟨_, b₂, -, h₄⟩
        · exact Emit.run_stmt_ne_error h₃
        · cases h₄
      · exact ih b₁ h₂
  exact run _ b

end Lowering

namespace Compiler

variable {c : Compiler} {x : ExternTable} {err : CompileError}

theorem prologue_ne_error (standard : c.lowering = .standard) :
    (c.prologue x).result ≠ .error err := by
  intro h
  unfold prologue at h
  rcases Traced.result_bind_eq_error h with h₁ | ⟨_, -, ha⟩
  · cases h₁
  rcases Traced.result_bind_eq_error ha with h₂ | ⟨_, -, hb⟩
  · cases h₂
  rcases Traced.result_bind_eq_error hb with h₃ | ⟨_, -, hc⟩
  · have hrun := Draft.emit_eq_error h₃
    rw [standard] at hrun
    exact Lowering.run_initLocals_ne_error _ _ _ hrun
  rcases Traced.result_bind_eq_error hc with h₄ | ⟨_, -, hd⟩
  · have divides := BlockTable.divides_ofStarts c.method
      (b := Builder.start c.method.name c.method.params c.method.locals x) Nat.one_pos
    exact divides.handle_ne_error c.method.zero_mem_blockStarts h₄
  · cases hd

/-- Where the stack has room for the value that waits, joining does not fail. -/
theorem join_ne_error {block : BasicBlock} {s : OperandStack} {b : Builder}
    (room : (if block.pending = [] then s.depth else s.depth + 1) ≤ s.max) :
    join block s b ≠ .error err := by
  intro h
  unfold join at h
  split at h
  · cases h
  next hsome =>
    obtain ⟨regs, max⟩ := s
    have full : ∀ t : OperandStack, t.max = max → t.depth < max → ∀ r e', t.push r ≠ .error e' := by
      intro t hmax hlt r e' hpush
      have := (OperandStack.push_eq_error hpush).1
      omega
    dsimp only at h
    cases hpush : (if block.pending.isEmpty then OperandStack.dropTop ⟨regs, max⟩
        else ⟨regs, max⟩).push (b.phi block.pending).1 with
    | ok t => rw [hpush] at h; cases h
    | error e' =>
      refine full _ ?_ ?_ _ _ hpush
      · split <;> rfl
      · simp only [Bool.and_eq_true, List.isEmpty_iff, OperandStack.isEmpty, not_and] at hsome
        by_cases hp : block.pending = []
        · rw [if_pos (by simp [hp])]
          rw [if_pos hp] at room
          have hne := List.length_pos_iff.mpr (hsome hp)
          simp only [OperandStack.depth, OperandStack.dropTop, List.length_tail] at room ⊢
          omega
        · rw [if_neg (by simp [hp])]
          rw [if_neg hp] at room
          exact room

theorem depth_of_join {block : BasicBlock} {s opened : OperandStack} {b b' : Builder}
    {merge : Option Reg} (h : join block s b = .ok (merge, opened, b')) :
    opened.depth = if block.pending = [] then s.depth else s.depth + 1 := by
  obtain ⟨-, -, -, hregs⟩ := join_eq_ok h
  unfold OperandStack.depth
  rw [hregs]
  split
  · cases hs : s.regs <;> simp [OperandStack.top?, hs]
  · rfl

/-- A path comes to an instruction that is refused with a stack of the depth that the path brings. -/
def Stuck (c : Compiler) (x : ExternTable) (e : CompileError) : Prop :=
  ∃ (p : Nat) (i : Instr) (s : OperandStack), c.method.Arrives p s.depth ∧
    c.method.instrAt? p = some i ∧ s.max = c.method.stackMax ∧ s.depth ≤ c.method.stackMax ∧
    c.Refuses x i s e

theorem Stuck.meetsFault (h : c.Stuck x err) (standard : c.lowering = .standard) :
    c.method.MeetsFault x err := by
  obtain ⟨p, i, s, path, found, max, room, refuses⟩ := h
  obtain ⟨hi, -⟩ := Method.instrAt?_eq_some_iff.mp found
  have hfaults := refuses.faults standard hi (by rw [max]; exact room)
  rw [max] at hfaults
  exact ⟨p, s.depth, i, path, found, hfaults⟩

section Straight

variable {t : BlockTable} {is : List Instr} {p q : Nat} {s s' : OperandStack} {b b' : Builder}

/-- A path goes on over instructions that were lowered. -/
theorem arrives_of_lowerAll (standard : c.lowering = .standard) (spans : Code.Contiguous p is q)
    (mem : ∀ i ∈ is, i ∈ c.method.instrs) (plain : ∀ i ∈ is, i.opcode.control = none)
    (max : s.max = c.method.stackMax) (room : s.depth ≤ c.method.stackMax)
    (path : c.method.Arrives p s.depth) (externs : b.externs = x)
    (h : (c.lowerAll t is s b).result = .ok (s', b')) :
    c.method.Arrives q s'.depth ∧ s'.max = c.method.stackMax ∧ s'.depth ≤ c.method.stackMax ∧
      b'.externs = x := by
  obtain ⟨code, hlowered, hmax, rfl⟩ := straights_of_lowerAll standard h
  rw [max] at hlowered
  exact ⟨hlowered.arrives spans mem plain room path, hmax.trans max, hlowered.length_le room, externs⟩

/-- Where lowering the straight part of a block fails, the path comes to an instruction that is
refused. -/
theorem stuck_of_lowerAll (standard : c.lowering = .standard) (spans : Code.Contiguous p is q)
    (mem : ∀ i ∈ is, i ∈ c.method.instrs) (plain : ∀ i ∈ is, i.opcode.control = none)
    (max : s.max = c.method.stackMax) (room : s.depth ≤ c.method.stackMax)
    (path : c.method.Arrives p s.depth) (externs : b.externs = x)
    (h : (c.lowerAll t is s b).result = .error err) : c.Stuck x err := by
  obtain ⟨before, i, after, code, s', b', rfl, hlowered, hmax, hexterns, hfails⟩ :=
    exists_run_of_lowerAll standard h
  rw [max] at hlowered
  obtain ⟨p', hbefore, rfl, -⟩ := Code.Contiguous.append_iff.mp spans
  have early {k : Instr} (hk : k ∈ before) : k ∈ before ++ i :: after :=
    List.mem_append_left _ hk
  have hpath := hlowered.arrives hbefore (fun k hk => mem k (early hk))
    (fun k hk => plain k (early hk)) room path
  exact ⟨_, i, s', hpath, Method.instrAt?_eq_some_iff.mpr ⟨mem i (by simp), rfl⟩, hmax.trans max,
    hlowered.length_le room, .straight (plain i (by simp)) (hexterns.trans externs) hfails⟩

end Straight

/-- Ending a block fails only at its transfer. -/
theorem refuses_of_finish {t : BlockTable} {d : Draft} (divides : t.Divides c.method)
    {b : BasicBlock} {exit? : Option (Instr × Control)} {s : OperandStack}
    (exits : ∀ i control, exit? = some (i, control) → i.opcode.control = some control)
    (h : (c.finish t b exit? s d).result = .error err) :
    ∃ i control, exit? = some (i, control) ∧ c.Refuses d.builder.externs i s err := by
  unfold finish at h
  split at h
  next i control =>
    rcases Traced.result_bind_eq_error h with h₁ | ⟨_, -, ha⟩
    · cases h₁
    · exact ⟨i, control, rfl, .transfer divides (exits i control rfl) rfl ha⟩
  next =>
    split at h
    next next hnext =>
      have hstarts := BlockTable.following?_mem_starts hnext
      rw [divides.starts_eq] at hstarts
      rcases bind_eq_error h with h₁ | ⟨_, -, ha⟩
      · exact absurd h₁ (divides.handle_ne_error hstarts)
      · cases ha
    next => cases h

/-- Only a block that is still to be compiled can fail to be entered. -/
theorem fresh_of_enter_eq_error {w : Walk} {start : Nat} {s : OperandStack}
    (h : (c.enter start s w).result = .error err) :
    ∃ b, w.table.block? start = some b ∧ b.compiled = false := by
  unfold enter at h
  split at h
  next => cases h
  next b found =>
    split at h
    next => cases h
    next fresh => exact ⟨b, found, by simpa using fresh⟩

/-- Where entering a block fails, a path that comes to it with the depth of its stack goes on to an
instruction that is refused. -/
theorem stuck_of_enter (standard : c.lowering = .standard) {w : Walk}
    (divides : w.table.Divides c.method) (externs : w.builder.externs = x) {start depth : Nat}
    {b : BasicBlock} {s : OperandStack} (found : w.table.block? start = some b)
    (hdepth : (if b.pending = [] then s.depth else s.depth + 1) = depth)
    (max : s.max = c.method.stackMax) (room : depth ≤ c.method.stackMax)
    (path : c.method.Arrives start depth) (h : (c.enter start s w).result = .error err) :
    c.Stuck x err := by
  obtain ⟨hb, rfl⟩ := BlockTable.of_block?_eq_some found
  unfold enter at h
  rw [found] at h
  dsimp only at h
  split at h
  · cases h
  rcases Traced.result_bind_eq_error h with h₁ | ⟨_, -, ha⟩
  · cases h₁
  rcases Traced.result_bind_eq_error ha with h₂ | ⟨⟨merge, opened, b₁⟩, h₂, hc⟩
  · exact absurd h₂ (join_ne_error (by rw [hdepth, max]; exact room))
  have hjoin : join b s (w.builder.switchTo b.handle) = .ok (merge, opened, b₁) := h₂
  have hopened := (depth_of_join hjoin).trans hdepth
  obtain ⟨-, hb₁, hmax, -⟩ := join_eq_ok hjoin
  have hexterns₁ : b₁.externs = x := by rw [hb₁]; exact externs
  rw [max] at hmax
  rw [← hopened] at path room
  obtain ⟨q, hspans, htransfer⟩ := divides.exists_transfer_at hb
  have early : ∀ i ∈ (c.method.instrsIn b.start b.last).takeWhile (!·.transfers),
      i ∈ c.method.instrs :=
    fun i hi => Method.mem_of_mem_instrsIn ((List.takeWhile_prefix _).subset hi)
  have plain : ∀ i ∈ (c.method.instrsIn b.start b.last).takeWhile (!·.transfers),
      i.opcode.control = none := by
    intro i hi
    have := List.mem_takeWhile_imp hi
    simpa [Instr.transfers] using this
  rcases Traced.result_bind_eq_error hc with h₃ | ⟨⟨s₂, b₂⟩, h₃, hd⟩
  · exact stuck_of_lowerAll standard hspans early plain hmax room path hexterns₁ h₃
  obtain ⟨hpath, hmax₂, hroom, hexterns⟩ :=
    arrives_of_lowerAll standard hspans early plain hmax room path hexterns₁ h₃
  rcases Traced.result_bind_eq_error hd with h₄ | ⟨_, -, he⟩
  · obtain ⟨i, control, hexit, hrefuses⟩ := refuses_of_finish
      (divides.of_sites (BlockTable.sites_modify _ _ fun _ => by rfl))
      (fun i control hi => (htransfer i control hi).2.2) h₄
    obtain ⟨hi, rfl, -⟩ := htransfer i control hexit
    dsimp only at hrefuses
    rw [hexterns] at hrefuses
    exact ⟨_, i, s₂, hpath, Method.instrAt?_eq_some_iff.mpr ⟨hi, rfl⟩, hmax₂, hroom, hrefuses⟩
  · cases he

end Compiler

/-- The edge goes forward to a block of which the table notes that a value flows in where the edge has
none, or that none does where it has one. -/
def Walk.Disagrees (w : Walk) (e : Edge) : Prop :=
  e.source < e.dest ∧
    ∃ b, w.table.block? e.dest = some b ∧ b.carries = some (!e.stack.top?.isSome)

namespace Journal.Reached

variable {c : Compiler} {x : ExternTable} {j : Journal} {err : CompileError}

/-- The phi of a block that was entered takes every value that comes. -/
theorem isSome_addPhiSource? (h : j.Reached c x) {v : Visit} (hv : v ∈ j.visits) {phi : Reg}
    (top : v.opened.top? = some phi) (source : BlockId × Reg) :
    (j.walk.builder.addPhiSource? v.handle phi source).isSome := by
  obtain ⟨code, hcode, -⟩ := h.coded.filled v hv
  have hstmts : (j.walk.builder.func.block v.handle).stmts =
      v.opened.phis (j.incoming v.start) ++ code := hcode
  unfold Builder.addPhiSource? Func.phiSources?
  rw [hstmts]
  simp [OperandStack.phis, top, Stmt.sourcesOf?]

/-- A block that was entered with a value, or was not entered, takes every value that comes. -/
theorem deliver_ne_error (h : j.Reached c x) {w : Walk} (same : w.builder = j.walk.builder) {e : Edge}
    {b : BasicBlock} (found : j.walk.table.block? e.dest = some b)
    (takes : b.carries.getD true = true) (r : Reg) : w.deliver b e r ≠ .error err := by
  unfold Walk.deliver
  rw [same]
  rcases h.noted found with ⟨hfresh, hmerge, -⟩ | ⟨v, hv, -, hhandle, -, hmerge, -, hcarries⟩
  · rw [hmerge]
    dsimp only
    rw [if_neg (by simp [hfresh])]
    nofun
  · rw [hcarries, Option.getD_some] at takes
    obtain ⟨phi, top⟩ := Option.isSome_iff_exists.mp takes
    obtain ⟨builder, hb⟩ := Option.isSome_iff_exists.mp
      (h.isSome_addPhiSource? hv top (e.pred, r))
    rw [hmerge, top]
    dsimp only
    rw [← hhandle, hb]
    nofun

/-- An edge is refused only for what the table notes of its block. -/
theorem disagrees_of_arrive (h : j.Reached c x) {e : Edge}
    (refused : (j.walk.arrive e).result = .error err) :
    err = .inconsistentMerge e.dest e.source ∧ j.walk.Disagrees e := by
  unfold Walk.arrive at refused
  split at refused
  · cases refused
  next forward =>
    split at refused
    · cases refused
    next b found =>
      dsimp only at refused
      split at refused
      next differs =>
        cases refused
        refine ⟨rfl, Nat.lt_of_not_le forward, b, found, ?_⟩
        cases hc : b.carries with
        | none => rw [hc] at differs; exact absurd rfl differs
        | some carries =>
          rw [hc, Option.getD_some] at differs
          rw [Bool.eq_not.mpr differs]
      next agrees =>
        rw [ne_eq, not_not] at agrees
        split at refused
        · cases refused
        next r top =>
          rw [top] at agrees
          rcases Traced.result_bind_eq_error refused with h₁ | ⟨_, -, h₂⟩
          · refine absurd h₁ (h.deliver_ne_error ?_ found agrees r)
            rfl
          · cases h₂

/-- An edge is refused only where another path brings to its destination what this one lacks. -/
theorem exhibits_of_arrive (h : j.Reached c x) {e : Edge} (he : e ∈ j.pending)
    (refused : (j.walk.arrive e).result = .error err) : c.method.Exhibits x err := by
  obtain ⟨rfl, forward, b, found, disagrees⟩ := h.disagrees_of_arrive refused
  rcases h.noted found with ⟨-, -, -, hcarries⟩ | ⟨v, hv, hs, -, -, -, -, hcarries⟩
  · rw [hcarries] at disagrees
    cases disagrees
  · have hpath := h.arrives v hv
    rw [hs] at hpath
    refine .merge forward (h.arrivesFrom (.inr he)) hpath ?_
    rw [hcarries, Option.some.injEq] at disagrees
    unfold OperandStack.top? at disagrees
    unfold OperandStack.depth
    cases he' : e.stack.regs <;> cases hv' : v.opened.regs <;> simp_all

/-- A block that an edge leaves still to be compiled is noted with what the edge brings. -/
theorem noted_of_arrive (h : j.Reached c x) {e : Edge} {s : OperandStack} {w : Walk} {b : BasicBlock}
    (arrives : (j.walk.arrive e).result = .ok (s, w)) (found : w.table.block? e.dest = some b)
    (fresh : b.compiled = false) :
    ∃ k, j.walk.table.block? e.dest = some k ∧ k.compiled = false ∧ b = e.note k ∧ s = e.entry ∧
      w = { j.walk with table := j.walk.table.modify e.dest e.note } := by
  cases hk : j.walk.table.block? e.dest with
  | none =>
    obtain rfl := Compiler.arrive_outside hk arrives
    rw [hk] at found
    cases found
  | some k =>
    cases hc : k.compiled with
    | true =>
      obtain ⟨-, htable⟩ := Compiler.passes_of_arrive h.tidy hk hc arrives
      rw [htable, hk] at found
      cases found
      rw [hc] at fresh
      cases fresh
    | false =>
      obtain ⟨rfl, rfl⟩ := Compiler.arrive_fresh h.tidy hk hc arrives
      have hstart (k : BasicBlock) : (e.note k).start = k.start :=
        congrArg Prod.fst (e.note_site k)
      rw [BlockTable.block?_modify_self _ _ hstart, hk] at found
      cases found
      exact ⟨k, rfl, hc, rfl, rfl, rfl⟩

/-- The stack of an edge that is about to enter a block has room for the value that waits there. -/
theorem entry_of_arrive (h : j.Reached c x) {e : Edge} (he : e ∈ j.pending) {s : OperandStack}
    {w : Walk} {b : BasicBlock} (arrives : (j.walk.arrive e).result = .ok (s, w))
    (found : w.table.block? e.dest = some b) (fresh : b.compiled = false) :
    w.table.Divides c.method ∧ w.builder.externs = x ∧
      (if b.pending = [] then s.depth else s.depth + 1) = e.stack.depth ∧
      s.max = c.method.stackMax ∧ e.stack.depth ≤ c.method.stackMax := by
  obtain ⟨k, hk, hfresh, rfl, rfl, rfl⟩ := h.noted_of_arrive arrives found fresh
  obtain ⟨-, hpending, -⟩ := h.tidy.fresh k (BlockTable.of_block?_eq_some hk).1 hfresh
  obtain ⟨hmax, hle⟩ := h.edge_depth_le (.inr he)
  refine ⟨?_, h.coded.externs, ?_, e.entry_max.trans hmax, hle⟩
  · exact h.tidy.divides.of_sites (BlockTable.sites_modify _ e.dest fun k =>
      congrArg (fun p => (p.1, p.2.1, p.2.2.1)) (e.note_site k))
  · rw [e.note_pending hpending]
    exact e.depth_entry

/-- Following an edge fails where the edge is refused, or at an instruction of the block that it
enters. -/
theorem refused_or_stuck (h : j.Reached c x) (standard : c.lowering = .standard) {e : Edge}
    (he : e ∈ j.pending) (failed : (c.follow e j.walk).result = .error err) :
    (j.walk.arrive e).result = .error err ∨ c.Stuck x err := by
  rcases Traced.result_bind_eq_error failed with h₁ | ⟨⟨s, w⟩, h₁, hentry⟩
  · exact .inl h₁
  right
  obtain ⟨b, found, fresh⟩ := Compiler.fresh_of_enter_eq_error hentry
  obtain ⟨divides, externs, hdepth, hmax, room⟩ := h.entry_of_arrive he h₁ found fresh
  exact Compiler.stuck_of_enter standard divides externs found hdepth hmax room
    (h.arrivesFrom (.inr he)).arrives hentry

theorem refused_or_meetsFault (h : j.Reached c x) (standard : c.lowering = .standard) {e : Edge}
    (he : e ∈ j.pending) (failed : (c.follow e j.walk).result = .error err) :
    (j.walk.arrive e).result = .error err ∨ c.method.MeetsFault x err :=
  (h.refused_or_stuck standard he failed).imp_right fun stuck => stuck.meetsFault standard

/-- A step fails where it follows an edge that fails. -/
theorem refused_or_stuck_of_advance (h : j.Reached c x) (standard : c.lowering = .standard)
    (failed : c.advance j = .error err) :
    (∃ e ∈ j.pending, (j.walk.arrive e).result = .error err) ∨ c.Stuck x err := by
  cases hp : j.pending with
  | nil =>
    unfold Compiler.advance at failed
    rw [hp] at failed
    cases failed
  | cons e rest =>
    have he : e ∈ j.pending := by rw [hp]; exact List.mem_cons_self
    have hfollow := Compiler.advance_cons (c := c) hp
    rw [failed] at hfollow
    cases hr : (c.follow e j.walk).result with
    | ok p => rw [hr] at hfollow; cases hfollow
    | error err' =>
      rw [hr] at hfollow
      cases hfollow
      rcases h.refused_or_stuck standard he hr with refused | stuck
      · exact .inl ⟨e, List.mem_cons_self, refused⟩
      · exact .inr stuck

end Journal.Reached

namespace Compiler

variable {c : Compiler} {x : ExternTable} {err : CompileError}

/-- A compilation that fails comes to a step that fails. -/
theorem exists_advance_of_complete (standard : c.lowering = .standard) {j : Journal}
    (reached : j.Reached c x) (failed : c.complete j = .error err) :
    ∃ j' : Journal, j'.Reached c x ∧ c.advance j' = .error err := by
  fun_induction complete c j with
  | case1 => cases failed
  | case2 j e rest hp err' hs => cases failed; exact ⟨j, reached, hs⟩
  | case3 j e rest hp j₁ hs ih =>
    exact ih (.step reached (step_of_advance standard reached.tidy hp hs)) failed

/-- Where the block at position 0 cannot be entered, the compilation is stuck. -/
theorem stuck_of_first (standard : c.lowering = .standard) {w : Walk}
    (prologue : (c.prologue x).result = .ok w)
    (failed : (c.enter 0 { max := c.method.stackMax } w).result = .error err) : c.Stuck x err := by
  have blank := blank_of_prologue standard prologue
  obtain ⟨b, hmem, -, hb⟩ := blank.divides.exists_block c.method.zero_mem_blockStarts
  have hpending := (blank.fresh b hmem).2.2.1
  exact stuck_of_enter standard blank.divides blank.externs hb (if_pos hpending) rfl
    (Nat.zero_le _) .start failed

/-- A compilation fails while the first block is entered, or after steps that did not fail. -/
theorem refused_or_stuck_of_error (standard : c.lowering = .standard)
    (failed : (c.compile x).result = .error err) :
    (∃ j : Journal, j.Reached c x ∧ ∃ e ∈ j.pending, (j.walk.arrive e).result = .error err) ∨
      c.Stuck x err := by
  rw [compile_result_eq] at failed
  have hjournal : c.journal x = .error err := by
    cases hj : c.journal x with
    | ok j => rw [hj] at failed; cases failed
    | error e' => rw [hj] at failed; cases failed; rfl
  rcases bind_eq_error hjournal with hbegin | ⟨j, hbegin, hcomplete⟩
  · rcases bind_eq_error hbegin with h₁ | ⟨w, h₁, h₂⟩
    · exact absurd h₁ (prologue_ne_error standard)
    right
    rcases bind_eq_error h₂ with h₃ | ⟨_, -, h₄⟩
    · exact stuck_of_first standard h₁ h₃
    · cases h₄
  · have reached := (reached_of_begin standard hbegin).1
    obtain ⟨j', hj', hs⟩ := exists_advance_of_complete standard reached hcomplete
    exact (hj'.refused_or_stuck_of_advance standard hs).imp_left fun refused => ⟨j', hj', refused⟩

theorem exhibits_of_error (standard : c.lowering = .standard)
    (failed : (c.compile x).result = .error err) : c.method.Exhibits x err := by
  rcases refused_or_stuck_of_error standard failed with ⟨j, hj, e, he, refused⟩ | stuck
  · exact hj.exhibits_of_arrive he refused
  · exact (stuck.meetsFault standard).exhibits

end Compiler

/-- The code of a method that is not compiled shows the error that is reported. -/
theorem exhibits_of_compile_error (c : Compiler) (x : ExternTable) (err : CompileError)
    (standard : c.lowering = .standard) (failed : (c.compile x).result = .error err) :
    c.method.Exhibits x err :=
  Compiler.exhibits_of_error standard failed

/-- Only one arm leaves a value: `putself; branchif M; putnil; M: leave`. -/
def lacking : Compiler where
  method :=
    { name := "lacking"
      code := [3, 26, 1, 2, 23]
      stackMax := 1
      params := 0
      locals := 0
      instrs := [⟨0, .putSelf, []⟩, ⟨1, .branchIf, [.offset 1]⟩, ⟨3, .putNil, []⟩, ⟨4, .leave, []⟩]
      verified := by cbv }
  lowering := .standard

theorem lacking_exhibits :
    (lacking.compile .standard).result = .error (.inconsistentMerge 4 1) ∧
      lacking.method.Exhibits .standard (.inconsistentMerge 4 1) := by
  have failed : (lacking.compile .standard).result = .error (.inconsistentMerge 4 1) := by cbv
  exact ⟨failed, exhibits_of_compile_error lacking .standard _ rfl failed⟩

end StackFlow
