import StackFlow.Proofs.IR.Reachable
import StackFlow.Proofs.Walk.Arrivals
import StackFlow.Proofs.Walk.Merges
import StackFlow.Proofs.Walk.Wiring

/-!
The graph of a compiled function is that of the method's code as far as control reaches it: what was
compiled (`Journal.Final.exists_visit_of_reaches`), how each block ends, which blocks the function can
reach (`Journal.Final.mem_reachable`) and which predecessors they have. Main statement:
`graph_mirrors_code`.
-/
namespace StackFlow

open IR (Reg Stmt BlockId Func Terminator)

/-- What the last instruction of a block turns into, where control goes to blocks of the table or for a
branch at the end of the code to the trap. -/
inductive Instr.EndsAs (m : Method) (t : BlockTable) (trap : Option BlockId) (i : Instr) :
    Terminator → Prop
  | jump {dest : Nat} {target : BlockId} (op : i.opcode.control = some .jump)
      (leads : i.jumpTarget? = some dest) (found : t.handle? dest = some target) :
      EndsAs m t trap i (.jump target)
  | branch {kind : BranchKind} {cond : Reg} {dest : Nat} {thenTo elseTo : BlockId}
      (op : i.opcode.control = some (.branch kind)) (leads : i.jumpTarget? = some dest)
      (found : t.handle? dest = some thenTo) (next : m.blockAt? t trap i.next = some elseTo) :
      EndsAs m t trap i (.branch cond thenTo elseTo)
  | dispatch {key : Reg} {cases : List (Value × Nat)} {other : Nat}
      {targets : List (Word × BlockId)} {otherTo : BlockId} (op : i.opcode.control = some .dispatch)
      (table : i.dispatchTable? = some (cases, other))
      (found : List.Forall₂ (fun (k, dest) (w, target) => w = k.bits ∧ t.handle? dest = some target)
        cases targets)
      (foundOther : t.handle? other = some otherTo) :
      EndsAs m t trap i (.switch key targets otherTo)
  | exit {kind : ExitKind} {r : Reg} (op : i.opcode.control = some (.exit kind)) :
      EndsAs m t trap i (.ret r)
  | fall {target : BlockId} (plain : i.opcode.control = none) (inside : i.next < m.length)
      (found : t.handle? i.next = some target) : EndsAs m t trap i (.jump target)
  | stop (plain : i.opcode.control = none) (outside : i.next = m.length) :
      EndsAs m t trap i .unreachable

/-- The end of a block is what its last instruction turns into. -/
theorem Ending.endsAs {m : Method} {x : ExternTable} {t : BlockTable} {trap : Option BlockId}
    {b : BasicBlock} {n : Nat} {i : Instr} {s : OperandStack} {code : List Stmt} {term : Terminator}
    {edges : List Edge}
    (h : Ending m x t trap b n (i.opcode.control.map (i, ·)) s code term edges)
    (after : i.next = m.length ∧ t.following? b.start = none ∨
      i.next < m.length ∧ t.following? b.start = some i.next) : i.EndsAs m t trap term := by
  cases hc : i.opcode.control with
  | some control =>
    rw [hc] at h
    cases h with
    | jump leads found => exact .jump hc leads found
    | branch leads found next => exact .branch hc leads found next
    | dispatch table found foundOther => exact .dispatch hc table found foundOther
    | leave => exact .exit hc
    | throw => exact .exit hc
  | none =>
    rw [hc] at h
    cases h with
    | fall follows found =>
      rcases after with ⟨-, hnone⟩ | ⟨hlt, hsome⟩
      · rw [hnone] at follows
        cases follows
      · rw [hsome] at follows
        cases follows
        exact .fall hc hlt found
    | stop follows =>
      rcases after with ⟨hend, -⟩ | ⟨-, hsome⟩
      · exact .stop hc hend
      · rw [hsome] at follows
        cases follows

namespace Journal.Final

variable {c : Compiler} {x : ExternTable} {j : Journal}

/-- A block of the function ends as the last instruction of its block does. -/
theorem exists_endsAs (h : j.Final c x) {v : Visit} (hv : v ∈ j.visits) :
    ∃ i, (c.method.instrsIn v.start v.block.last).getLast? = some i ∧
      i.EndsAs c.method j.walk.table j.walk.trap (j.func.exit v.handle) := by
  obtain ⟨before, i, n, s, code, hsplit, -, hafter, hending⟩ := h.exists_ending hv
  exact ⟨i, by rw [hsplit]; simp, hending.endsAs hafter⟩

/-- Compilation entered the block of every instruction that a path comes to. -/
theorem exists_visit_of_reaches (h : j.Final c x) {p : Nat} {d : Int} (hp : c.method.Reaches p d)
    (hlt : p < c.method.length) : ∃ v ∈ j.visits, v.start ≤ p ∧ p ≤ v.block.last := by
  induction hp with
  | start =>
    obtain ⟨v, hv, begins⟩ := h.exists_first
    exact ⟨v, hv, Nat.le_of_eq begins.start, Nat.zero_le _⟩
  | @step p q depth i _ found after ih =>
    obtain ⟨hi, rfl⟩ := Method.instrAt?_eq_some_iff.mp found
    obtain ⟨v, hv, hstart, hlast⟩ := ih (Method.Holds.lt_length ⟨i, hi, rfl⟩)
    obtain ⟨b, hb, hbs, hbl, -⟩ := h.reached.linked.exists_block hv
    obtain ⟨before, k, hsplit, hend, -, hspans, plain⟩ := h.divides.exists_last hb
    rw [hbs, hbl] at hsplit
    rw [hbl] at hend
    have hmem := Method.mem_instrsIn hi hstart hlast
    rw [hsplit] at hmem
    rcases List.mem_append.mp hmem with hbefore | hlast
    · -- before the end of the block control goes on to the next instruction
      have hnext := (hspans.bounds hbefore).2
      have hkpos := k.position_lt_next
      have hq : q = i.next := by simpa [Instr.successors, plain i hbefore] using after
      have hpos := i.position_lt_next
      exact ⟨v, hv, by omega, by omega⟩
    · obtain rfl := List.mem_singleton.mp hlast
      obtain ⟨k, hleaves⟩ := h.exists_leaves hv
      obtain rfl : i = k := by simpa [hsplit] using hleaves.last
      have hdest : q ∈ (v.edges.map (·.dest)).filter (· < c.method.length) := by
        rw [hleaves.dests]
        exact List.mem_filter.mpr ⟨after, by simpa using hlt⟩
      obtain ⟨e, he, rfl⟩ := List.mem_map.mp (List.mem_filter.mp hdest).1
      obtain ⟨u, hu, hs⟩ := h.exists_visit_of_lt hv he hlt
      exact ⟨u, hu, Nat.le_of_eq hs, by rw [← hs]; exact (h.contiguous_body hu).1⟩

/-- A block was compiled just if control reaches it. -/
theorem compiled_iff_reaches (h : j.Final c x) {b : BasicBlock} (hb : b ∈ j.walk.table.blocks) :
    b.compiled = true ↔ ∃ d, c.method.Reaches b.start d := by
  rw [h.compiled_iff hb]
  constructor
  · rintro ⟨v, hv, hsite⟩
    rw [← (Prod.mk.inj hsite).1]
    exact ⟨_, (h.reached.arrives v hv).reaches⟩
  · rintro ⟨d, hd⟩
    obtain ⟨v, hv, hstart, hlast⟩ := h.exists_visit_of_reaches hd (h.divides.holds_start hb).lt_length
    obtain ⟨k, hk, hks, hkl, hkh⟩ := h.reached.linked.exists_block hv
    have hle := (h.divides.after hb).1
    obtain rfl : k = b := h.divides.eq_of_within hk hb (p := b.start) (by omega) (by omega)
    exact ⟨v, hv, by rw [hks, hkl, hkh]⟩

/-- The entry leads to the block at position 0, which was entered. -/
theorem mem_successors_entry (h : j.Final c x) {id : BlockId} :
    id ∈ j.func.successors Func.entry ↔ ∃ v ∈ j.visits, v.start = 0 ∧ v.handle = id := by
  obtain ⟨target, htarget, hjump⟩ := h.reached.coded.start
  have hexit : j.func.successors Func.entry = [target] := congrArg Terminator.successors hjump
  rw [hexit, List.mem_singleton]
  constructor
  · rintro rfl
    obtain ⟨v, hv, begins⟩ := h.exists_first
    have hhandle := h.reached.linked.handle?_start hv
    rw [begins.start, htarget] at hhandle
    exact ⟨v, hv, begins.start, (Option.some.inj hhandle).symm⟩
  · rintro ⟨v, hv, hs, rfl⟩
    have hhandle := h.reached.linked.handle?_start hv
    rw [hs, htarget] at hhandle
    exact (Option.some.inj hhandle).symm

/-- A block that was entered leads to such blocks and to the trap. -/
theorem successor_of_visit (h : j.Final c x) {u : Visit} (hu : u ∈ j.visits) {id : BlockId}
    (hid : id ∈ j.func.successors u.handle) :
    (∃ v ∈ j.visits, v.handle = id) ∨ j.walk.trap = some id := by
  obtain ⟨code, -, hlaid⟩ := h.reached.coded.filled u hu
  obtain ⟨e, he, hblock⟩ := hlaid.exists_edge h.divides hid
  rcases h.exists_visit hu he hblock with ⟨v, hv, -, hhandle⟩ | ⟨-, htrap⟩
  · exact .inl ⟨v, hv, hhandle⟩
  · exact .inr htrap

/-- Control can reach the entry, the blocks that were entered, and the trap if there is one. -/
theorem mem_reachable (h : j.Final c x) {id : BlockId} : id ∈ j.func.reachable ↔
    id = Func.entry ∨ (∃ v ∈ j.visits, v.handle = id) ∨ j.walk.trap = some id := by
  constructor
  · refine j.func.reachable_induction (P := fun id =>
      id = Func.entry ∨ (∃ v ∈ j.visits, v.handle = id) ∨ j.walk.trap = some id) (.inl rfl) ?_ id
    rintro b (rfl | ⟨u, hu, rfl⟩ | htrap) s hs
    · obtain ⟨v, hv, -, hhandle⟩ := h.mem_successors_entry.mp hs
      exact .inr (.inl ⟨v, hv, hhandle⟩)
    · exact .inr (h.successor_of_visit hu hs)
    · have hexit : j.func.successors b = [] :=
        congrArg Terminator.successors (h.reached.coded.trap b htrap).1
      rw [hexit] at hs
      cases hs
  · have visited : ∀ v ∈ j.visits, v.handle ∈ j.func.reachable := by
      apply h.reached.linked.visit_induction (P := fun v => v.handle ∈ j.func.reachable)
      · intro v hv begins
        refine j.func.successor_mem_reachable j.func.entry_mem_reachable ?_
        exact h.mem_successors_entry.mpr ⟨v, hv, begins.start, rfl⟩
      · intro u hu e he _ v hv via ih
        obtain ⟨code, -, hlaid⟩ := h.reached.coded.filled u hu
        obtain ⟨target, htarget, hblock⟩ := hlaid.exists_target h.divides he
        have hhandle := h.reached.linked.handle?_start hv
        rw [via.start] at hhandle
        rw [Method.blockAt?_of_handle? h.divides.lt_length hhandle] at hblock
        cases hblock
        exact j.func.successor_mem_reachable ih htarget
    rintro (rfl | ⟨v, hv, rfl⟩ | htrap)
    · exact j.func.entry_mem_reachable
    · exact visited v hv
    · obtain ⟨v, hv, hs⟩ := h.reached.wired.trap id htrap
      exact j.func.successor_mem_reachable (visited v hv) hs

theorem idle_of_not_reachable (h : j.Final c x) {id : BlockId} (hid : id ∉ j.func.reachable) :
    j.func.code id = [] ∧ j.func.exit id = .missing := by
  rw [h.mem_reachable, not_or, not_or] at hid
  obtain ⟨hentry, hvisit, htrap⟩ := hid
  have hvisits : ∀ v ∈ j.visits, v.handle ≠ id := fun v hv hh => hvisit ⟨v, hv, hh⟩
  exact ⟨h.reached.coded.elsewhere id hentry hvisits, h.reached.wired.idle id hentry hvisits htrap⟩

/-- Nothing was done to a block that control does not reach. -/
theorem block_of_not_compiled (h : j.Final c x) {b : BasicBlock} (hb : b ∈ j.walk.table.blocks)
    (fresh : b.compiled = false) : j.func.block b.handle = {} := by
  have hunreached : b.handle ∉ j.func.reachable := by
    rw [h.mem_reachable]
    rintro (hentry | ⟨v, hv, hh⟩ | htrap)
    · exact h.divides.inside b hb hentry
    · obtain ⟨k, hk, hks, hkl, hkh⟩ := h.reached.linked.exists_block hv
      obtain rfl : k = b := List.inj_on_of_nodup_map h.divides.handles hk hb (hkh.trans hh)
      rw [(h.compiled_iff hb).mpr ⟨v, hv, by rw [hks, hkl, hkh]⟩] at fresh
      cases fresh
    · exact (h.reached.coded.trap _ htrap).2.2.2 b hb rfl
  obtain ⟨hcode, hexit⟩ := h.idle_of_not_reachable hunreached
  have hpreds : j.func.preds b.handle = [] := by
    rw [List.eq_nil_iff_forall_not_mem]
    intro p hp
    have hs := (h.reached.wired.preds _ p).mp hp
    by_cases hreach : p ∈ j.func.reachable
    · exact hunreached (j.func.successor_mem_reachable hreach hs)
    · rw [(h.idle_of_not_reachable hreach).2] at hs
      cases hs
  have eta (k : IR.Block) : k = ⟨k.stmts, k.terminator, k.preds⟩ := rfl
  rw [eta (j.func.block b.handle)]
  exact congr (congr (congrArg IR.Block.mk hcode) hexit) hpreds

end Journal.Final

/-- The graph of the function is that of the code as far as control reaches it, with the trap for
branches at the end of the code that are not taken. -/
structure Compiled.Mirrors (k : Compiled) (m : Method) (trap : Option BlockId) : Prop where
  compiled : ∀ b ∈ k.table.blocks, b.compiled = true ↔ ∃ d, m.Reaches b.start d
  entry : ∃ target, k.table.handle? 0 = some target ∧ k.func.exit Func.entry = .jump target
  ends : ∀ b ∈ k.table.blocks, b.compiled = true → ∃ i,
    (m.instrsIn b.start b.last).getLast? = some i ∧
      i.EndsAs m k.table trap (k.func.exit b.handle)
  idle : ∀ b ∈ k.table.blocks, b.compiled = false → k.func.block b.handle = {}
  stops : ∀ id, trap = some id → k.func.code id = [] ∧ k.func.exit id = .unreachable ∧
    id ≠ Func.entry ∧ ∀ b ∈ k.table.blocks, b.handle ≠ id
  preds : ∀ id p, p ∈ k.func.preds id ↔ id ∈ k.func.successors p
  once : ∀ id, (k.func.preds id).Nodup
  reachable : ∀ id, id ∈ k.func.reachable ↔ id = Func.entry ∨
    (∃ b ∈ k.table.blocks, b.compiled = true ∧ b.handle = id) ∨ trap = some id

/-- Control goes through a compiled function as it does through the code of the method. -/
theorem graph_mirrors_code (c : Compiler) (x : ExternTable) (k : Compiled)
    (standard : c.lowering = .standard) (accepted : (c.compile x).result = .ok k) :
    ∃ trap, k.Mirrors c.method trap := by
  obtain ⟨j, hj, rfl⟩ := Compiler.journal_of_compile accepted
  have h := Journal.final_of_journal standard hj
  refine ⟨j.walk.trap, ⟨fun b hb => h.compiled_iff_reaches hb, h.reached.coded.start, ?_,
    fun b hb => h.block_of_not_compiled hb, ?_, h.reached.wired.preds, h.reached.wired.nodup, ?_⟩⟩
  · intro b hb compiled
    obtain ⟨v, hv, hsite⟩ := (h.compiled_iff hb).mp compiled
    obtain ⟨i, hlast, hends⟩ := h.exists_endsAs hv
    obtain ⟨hs, hsite⟩ := Prod.mk.inj hsite
    obtain ⟨hl, hh⟩ := Prod.mk.inj hsite
    rw [hs, hl] at hlast
    rw [hh] at hends
    exact ⟨i, hlast, hends⟩
  · intro id htrap
    obtain ⟨-, hne, -, hhandles⟩ := h.reached.coded.trap id htrap
    obtain ⟨hcode, hexit, -⟩ := h.code_trap htrap
    exact ⟨hcode, hexit, hne, hhandles⟩
  · intro id
    refine h.mem_reachable.trans (or_congr_right (or_congr_left ⟨?_, ?_⟩))
    · rintro ⟨v, hv, rfl⟩
      obtain ⟨b, hb, hs, hl, hh⟩ := h.reached.linked.exists_block hv
      exact ⟨b, hb, (h.compiled_iff hb).mpr ⟨v, hv, by rw [hs, hl, hh]⟩, hh⟩
    · rintro ⟨b, hb, compiled, rfl⟩
      obtain ⟨v, hv, hsite⟩ := (h.compiled_iff hb).mp compiled
      exact ⟨v, hv, (Prod.mk.inj (Prod.mk.inj hsite).2).2⟩

/-- A branch at the end of the code: `L: putself; branchif L`. -/
def looping : Compiler where
  method :=
    { name := "looping"
      code := [3, 26, 18446744073709551613]
      stackMax := 1
      params := 0
      locals := 0
      instrs := [⟨0, .putSelf, []⟩, ⟨1, .branchIf, [.offset (-3)]⟩]
      verified := by cbv }
  lowering := .standard

theorem looping_mirrors : ∃ k trap, (looping.compile .standard).result = .ok k ∧
    k.Mirrors looping.method (some trap) := by
  obtain ⟨j, hj, b, hb, compiled, hsuccessor, hhandles⟩ : ∃ j, looping.journal .standard = .ok j ∧
      ∃ b ∈ j.walk.table.blocks, b.compiled = true ∧ ⟨2⟩ ∈ j.func.successors b.handle ∧
        ∀ k ∈ j.walk.table.blocks, k.handle ≠ ⟨2⟩ :=
    Compiler.journal_of_advanceBy 2 (by rfl)
  have accepted := Compiler.compile_of_journal hj
  obtain ⟨trap, mirrors⟩ := graph_mirrors_code looping .standard _ rfl accepted
  have hreach : b.handle ∈ j.func.reachable :=
    (mirrors.reachable _).mpr (.inr (.inl ⟨b, hb, compiled, rfl⟩))
  have hnext := j.func.successor_mem_reachable hreach hsuccessor
  rcases (mirrors.reachable _).mp hnext with hentry | ⟨k, hk, -, hh⟩ | htrap
  · cases hentry
  · exact absurd hh (hhandles k hk)
  · rw [htrap] at mirrors
    exact ⟨_, _, accepted, mirrors⟩

end StackFlow
