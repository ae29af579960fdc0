import StackFlow.Proofs.Walk.Faults
import StackFlow.Proofs.Walk.Relocation

/-!
Code that control does not reach. A block that is entered leads only to blocks that a path comes to
(`Compiler.reaches_of_enter`), so what the other blocks hold is never looked at. Main statement:
methods of one frame with the same blocks, which agree on every block that a path comes to, are
compiled to the same function and table, or fail with the same error (`compile_eq_of_sharesLive`).
-/
namespace StackFlow

open IR (Builder BlockId Stmt Terminator)

namespace Method

/-- First and last words of the basic blocks. -/
def ranges (m : Method) : List (Nat × Nat) :=
  (BlockTable.ofStarts m.blockStarts m.length
    (Builder.start m.name m.params m.locals {})).1.blocks.map fun b => (b.start, b.last)

theorem mem_ranges {m : Method} {t : BlockTable} (h : t.Covers m) {b : BasicBlock}
    (hb : b ∈ t.blocks) : (b.start, b.last) ∈ m.ranges := by
  have covers := BlockTable.covers_ofStarts m (Builder.start m.name m.params m.locals {})
  rw [ranges, h.ranges_eq covers]
  exact List.mem_map_of_mem hb

/-- The methods have one frame and the same blocks, and in each block that a path of the first comes to
the same instructions. The other blocks may hold whatever they like. -/
structure SharesLive (m m' : Method) : Prop where
  name_eq : m'.name = m.name
  length_eq : m'.length = m.length
  stackMax_eq : m'.stackMax = m.stackMax
  params_eq : m'.params = m.params
  locals_eq : m'.locals = m.locals
  starts_eq : m'.blockStarts = m.blockStarts
  live : ∀ r ∈ m.ranges, (∃ d, m.Reaches r.1 d) → m'.instrsIn r.1 r.2 = m.instrsIn r.1 r.2

end Method

/-! ### Everything at its own position -/

theorem BasicBlock.relocate_id (b : BasicBlock) : b.relocate id = b := rfl

theorem BlockTable.relocate_id (t : BlockTable) : t.relocate id = t := by
  unfold relocate
  rw [funext BasicBlock.relocate_id]
  simp

theorem Instr.mirrors_self (i : Instr) : i.Mirrors id i where
  position_eq := rfl
  next_eq := rfl
  control_eq := rfl
  straight _ b := Lowering.mirrored_straight rfl rfl rfl rfl b
  exit _ _ := ⟨rfl, rfl⟩
  jump _ := by simp
  dispatch _ := by cases i.dispatchTable? <;> simp

theorem Method.SharesLive.mirrors {m m' : Method} (h : m.SharesLive m') :
    m.Mirrors id (fun p => ∃ d, m.Reaches p d) m' where
  mono := strictMono_id
  zero := rfl
  name_eq := h.name_eq
  params_eq := h.params_eq
  locals_eq := h.locals_eq
  stackMax_eq := h.stackMax_eq
  length_eq := h.length_eq
  starts_eq := by rw [h.starts_eq, List.map_id]
  bodies t covers b hb reached := by
    rw [b.relocate_id, h.live _ (Method.mem_ranges covers hb) reached]
    exact List.forall₂_same.mpr fun i _ => i.mirrors_self

/-- Errors that name the same positions are the same, apart from complaints about the code. -/
theorem CompileError.Mirrors.eq {e e' : CompileError} (h : e.Mirrors id e')
    (plain : ∀ k, e ≠ .code k) : e' = e := by
  cases h with
  | inconsistentMerge p beside =>
    rcases beside with rfl | h
    · rfl
    · rw [Nat.add_right_cancel h]
      rfl
  | code e => exact absurd rfl (plain e)
  | _ => rfl

/-- The edges out of a block lead where its last instruction does. -/
theorem BlockTable.Covers.mem_successors_of_ending {m : Method} {x : ExternTable} {t t' : BlockTable}
    {trap : Option BlockId} {b : BasicBlock} {n : Nat} {i : Instr} {s : OperandStack}
    {code : List Stmt} {term : Terminator} {edges : List Edge} (h : t.Covers m) (hb : b ∈ t.blocks)
    (last : i.next = b.last + 1) (following : t'.following? b.start = t.following? b.start)
    (ending : Ending m x t' trap b n (i.opcode.control.map (i, ·)) s code term edges) :
    ∀ e ∈ edges, e.dest ∈ i.successors := by
  intro e he
  have mem : e.dest ∈ edges.map (·.dest) := List.mem_map_of_mem he
  cases control : i.opcode.control with
  | some transfer =>
    rw [control] at ending
    rwa [← ending.dests_eq control]
  | none =>
    rw [control] at ending
    rw [ending.dests_eq_following, following] at mem
    rcases (h.after hb).2 with ⟨-, hnone⟩ | ⟨-, -, hsome⟩
    · rw [hnone] at mem
      cases mem
    · rw [hsome, ← last] at mem
      simpa [Instr.successors, control] using mem

namespace Compiler

variable {c : Compiler}

/-- A block that a path comes to leads only to positions that a path comes to. -/
theorem reaches_of_enter (standard : c.lowering = .standard) {start : Nat} {s : OperandStack}
    {w w' : Walk} {edges : List Edge} (covers : w.table.Covers c.method)
    (reached : ∃ d, c.method.Reaches start d) (h : (c.enter start s w).result = .ok (w', edges)) :
    ∀ e ∈ edges, ∃ d, c.method.Reaches e.dest d := by
  have sites := sites_enter h
  cases found : w.table.block? start with
  | none =>
    rw [enter_of_done s (by rw [found]; rfl)] at h
    cases h
    nofun
  | some b =>
    cases fresh : b.compiled with
    | true =>
      rw [enter_of_done s (by rw [found]; exact fresh)] at h
      cases h
      nofun
    | false =>
      obtain ⟨hb, rfl⟩ := BlockTable.of_block?_eq_some found
      obtain ⟨d, path⟩ := reached
      obtain ⟨_, _, _, _, -, -, -, -, ⟨_, _, _, -, -, -, ending⟩, -⟩ :=
        enter_eq_ok standard none found rfl fresh h
      obtain ⟨i, hi, hnext, ⟨d', last⟩, hexit⟩ := covers.exists_reaches_last hb path
      have following := BlockTable.following?_congr sites b.start
      intro e he
      have leads := covers.mem_successors_of_ending hb hnext following (hexit ▸ ending) e he
      exact ⟨_, last.step (Method.instrAt?_eq_some_iff.mpr ⟨hi, rfl⟩) leads⟩

end Compiler

/-- Code that no path comes to has no influence: two methods that agree on the rest are compiled to the
same function and table, or fail with the same error, whatever host functions there are. -/
theorem compile_eq_of_sharesLive (c c' : Compiler) (x : ExternTable)
    (standard : c.lowering = .standard) (standard' : c'.lowering = .standard)
    (shares : c.method.SharesLive c'.method) :
    (c'.compile x).result = (c.compile x).result := by
  have mirrored := Compiler.mirrored_compile standard standard' shares.mirrors x ⟨0, .start⟩
    fun _ _ _ _ _ covers reached h => Compiler.reaches_of_enter standard covers reached h
  have plain (e : CompileError) (failed : (c.compile x).result = .error e) (k : CodeError) :
      e ≠ .code k := by
    rintro rfl
    cases Compiler.exhibits_of_error standard failed with
    | fault _ _ faults => cases faults
  generalize (c.compile x).result = r at mirrored plain ⊢
  generalize (c'.compile x).result = r' at mirrored ⊢
  cases mirrored with
  | error mirrors => rw [mirrors.eq (plain _ rfl)]
  | @ok k k' related =>
    obtain ⟨func, table⟩ := k
    obtain ⟨func', table'⟩ := k'
    obtain ⟨hfunc, htable⟩ := related
    rw [table.relocate_id] at htable
    cases hfunc
    cases htable
    rfl

/-- An instruction that is not supported, where no path comes: `putself; branchif L; putnil; leave;
putstring 4; pop; L: putnil; leave`. -/
def skipping : Compiler where
  method :=
    { name := "skipping"
      code := [3, 26, 5, 2, 23, 7, 9, 9, 2, 23]
      stackMax := 1
      params := 0
      locals := 0
      instrs := [⟨0, .putSelf, []⟩, ⟨1, .branchIf, [.offset 5]⟩, ⟨3, .putNil, []⟩, ⟨4, .leave, []⟩,
        ⟨5, .putString, [.value ⟨9⟩]⟩, ⟨7, .pop, []⟩, ⟨8, .putNil, []⟩, ⟨9, .leave, []⟩]
      verified := by cbv }
  lowering := .standard

/-- Three values too few in the same place: `putself; branchif L; putnil; leave; pop; pop; pop;
L: putnil; leave`. -/
def skippingPops : Compiler where
  method :=
    { name := "skipping"
      code := [3, 26, 5, 2, 23, 9, 9, 9, 2, 23]
      stackMax := 1
      params := 0
      locals := 0
      instrs := [⟨0, .putSelf, []⟩, ⟨1, .branchIf, [.offset 5]⟩, ⟨3, .putNil, []⟩, ⟨4, .leave, []⟩,
        ⟨5, .pop, []⟩, ⟨6, .pop, []⟩, ⟨7, .pop, []⟩, ⟨8, .putNil, []⟩, ⟨9, .leave, []⟩]
      verified := by cbv }
  lowering := .standard

theorem skipping_sharesLive : skipping.method.SharesLive skippingPops.method ∧
    (skippingPops.compile .standard).result = (skipping.compile .standard).result := by
  have ranges : skipping.method.ranges = [(0, 2), (3, 4), (5, 7), (8, 9)] := by cbv
  have dead (d : Int) : ¬ skipping.method.Reaches 5 d := by
    intro path
    have inside := path.mem_of_closed (show 0 ∈ [0, 1, 3, 4, 8, 9] by decide) (by decide)
    exact absurd inside (by decide)
  have shares : skipping.method.SharesLive skippingPops.method :=
    { name_eq := rfl, length_eq := rfl, stackMax_eq := rfl, params_eq := rfl, locals_eq := rfl
      starts_eq := by cbv
      live := by
        rw [ranges]
        intro r hr reached
        simp only [List.mem_cons, List.not_mem_nil, or_false] at hr
        rcases hr with rfl | rfl | rfl | rfl
        · rfl
        · rfl
        · obtain ⟨d, path⟩ := reached
          exact absurd path (dead d)
        · rfl }
  exact ⟨shares, compile_eq_of_sharesLive skipping skippingPops .standard rfl rfl shares⟩

end StackFlow
