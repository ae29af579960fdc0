import StackFlow.Proofs.Walk.Faults

/-!
What a compilation looks up is there. Whatever block it enters, every place that the block hands
control to has its register code, and the phi of the block has room on the stack; whatever edge it
follows leads to a block or past the end of the code after a branch, and the value on it finds its phi.
Main statement: the errors for a look-up that fails never come up, and an edge is refused only for
what the table notes of its block (`lookups_succeed`).
-/
namespace StackFlow

open IR (Reg BlockId)

namespace Compiler

/-- The compilation comes to the walk, with these edges left to follow. -/
inductive Comes (c : Compiler) (x : ExternTable) : Walk → List Edge → Prop
  | begin {w w' : Walk} {edges : List Edge} (prologue : (c.prologue x).result = .ok w)
      (enter : (c.enter 0 { max := c.method.stackMax } w).result = .ok (w', edges)) :
      Comes c x w' edges
  | follow {w w' : Walk} {e : Edge} {rest edges : List Edge} (before : Comes c x w (e :: rest))
      (follow : (c.follow e w).result = .ok (w', edges)) : Comes c x w' (edges ++ rest)

/-- The compilation is about to enter the block at `start`, with this stack. -/
inductive Enters (c : Compiler) (x : ExternTable) : Nat → OperandStack → Walk → Prop
  | first {w : Walk} (prologue : (c.prologue x).result = .ok w) :
      Enters c x 0 { max := c.method.stackMax } w
  | along {w w' : Walk} {e : Edge} {rest : List Edge} {s : OperandStack}
      (before : c.Comes x w (e :: rest)) (arrive : (w.arrive e).result = .ok (s, w')) :
      Enters c x e.dest s w'

/-- The instruction that ends a block by a transfer, if there is one. -/
def exit? (c : Compiler) (b : BasicBlock) : Option (Instr × Control) :=
  (c.method.instrsIn b.start b.last).findSome? fun i => i.opcode.control.map (i, ·)

theorem exit?_eq_some (c : Compiler) {b : BasicBlock} {i : Instr} {control : Control}
    (h : c.exit? b = some (i, control)) :
    i ∈ c.method.instrs ∧ i.opcode.control = some control := by
  obtain ⟨k, hk, he⟩ := List.exists_of_findSome?_eq_some h
  obtain ⟨control', hcontrol, hp⟩ := Option.map_eq_some_iff.mp he
  cases hp
  exact ⟨Method.mem_of_mem_instrsIn hk, hcontrol⟩

/-- Whatever the end of the block looks up is there. -/
structure Finds (c : Compiler) (t : BlockTable) (b : BasicBlock) : Prop where
  jump : ∀ i control, c.exit? b = some (i, control) →
    (control = .jump ∨ ∃ kind, control = .branch kind) →
    ∃ dest target, i.destination = .ok dest ∧ t.handle dest i.position = .ok target
  branch : ∀ i kind, c.exit? b = some (i, .branch kind) → ∀ d, ∃ r, c.nextBlock t i d = .ok r
  dispatch : ∀ i, c.exit? b = some (i, .dispatch) → ∃ cases other,
    i.dispatchTable? = some (cases, other) ∧
      ∀ p ∈ other :: cases.map Prod.snd, ∃ target, t.handle p i.position = .ok target
  fall : c.exit? b = none → ∀ next, t.following? b.start = some next →
    ∃ target, t.handle next b.last = .ok target

/-- Control goes on past the end of the code after the conditional branch at the position. -/
def RunsOff (c : Compiler) (source dest : Nat) : Prop :=
  dest = c.method.length ∧ ∃ i ∈ c.method.instrs, ∃ kind,
    i.opcode.control = some (.branch kind) ∧ i.position = source ∧ i.next = dest

end Compiler

namespace BlockTable.Divides

variable {c : Compiler} {t : BlockTable}

theorem exists_handle (h : t.Divides c.method) {p : Nat} (hp : p ∈ c.method.blockStarts)
    (source : Nat) : ∃ target, t.handle p source = .ok target := by
  cases hh : t.handle p source with
  | ok target => exact ⟨target, rfl⟩
  | error e => exact absurd hh (h.handle_ne_error hp)

/-- Transfers lead to starts of blocks, and these are in the table. -/
theorem finds (h : t.Divides c.method) (b : BasicBlock) : c.Finds t b := by
  constructor
  · intro i control hexit hleads
    obtain ⟨hi, hcontrol⟩ := c.exit?_eq_some hexit
    have op : i.opcode.layout = some [.offset] := by
      apply Opcode.layout_of_offset
      rcases hleads with rfl | ⟨kind, rfl⟩
      · exact .inl hcontrol
      · exact .inr ⟨kind, hcontrol⟩
    cases hdest : i.destination with
    | error e => exact absurd hdest (Compiler.destination_ne_error hi op)
    | ok dest =>
      obtain ⟨target, htarget⟩ :=
        h.exists_handle (Compiler.destination_mem_blockStarts hi op hdest) i.position
      exact ⟨dest, target, rfl, htarget⟩
  · intro i kind hexit d
    obtain ⟨hi, hcontrol⟩ := c.exit?_eq_some hexit
    cases hnext : c.nextBlock t i d with
    | ok r => exact ⟨r, rfl⟩
    | error e =>
      exact absurd hnext (Compiler.nextBlock_ne_error h hi (by simp [Instr.transfers, hcontrol]))
  · intro i hexit
    obtain ⟨hi, hcontrol⟩ := c.exit?_eq_some hexit
    obtain ⟨cases, other, table, hmem⟩ :=
      Method.exists_dispatchTable? hi (Opcode.eq_caseDispatch_of_control hcontrol)
    exact ⟨cases, other, table, fun p hp =>
      h.exists_handle (Method.startsBlock_of_target hi (hmem p hp)) i.position⟩
  · intro _ next hnext
    have hstarts := BlockTable.following?_mem_starts hnext
    rw [h.starts_eq] at hstarts
    exact h.exists_handle hstarts b.last

end BlockTable.Divides

/-- An edge that leads to no block leads past the end of the code, after a branch. -/
theorem Ending.runsOff {c : Compiler} {x : ExternTable} {t : BlockTable} {trap : Option BlockId}
    {b : BasicBlock} {n : Nat} {s : OperandStack} {code : List IR.Stmt} {term : IR.Terminator}
    {edges : List Edge} (h : Ending c.method x t trap b n (c.exit? b) s code term edges)
    (divides : t.Divides c.method) {e : Edge} (he : e ∈ edges) (absent : t.block? e.dest = none) :
    c.RunsOff e.source e.dest := by
  have hnone (p : Nat) (hp : p ∈ c.method.blockStarts) : e.dest ≠ p := by
    rintro rfl
    obtain ⟨b, -, -, hb⟩ := divides.exists_block hp
    rw [absent] at hb
    cases hb
  cases hexit : c.exit? b with
  | none =>
    rw [hexit] at h
    have hdest : e.dest ∈ (t.following? b.start).toList := by
      rw [← h.dests_eq_following]
      exact List.mem_map_of_mem he
    have hstarts := BlockTable.following?_mem_starts (Option.mem_toList.mp hdest)
    rw [divides.starts_eq] at hstarts
    exact absurd rfl (hnone _ hstarts)
  | some p =>
    obtain ⟨i, control⟩ := p
    obtain ⟨hi, hcontrol⟩ := c.exit?_eq_some hexit
    rw [hexit] at h
    have hdest : e.dest ∈ i.successors := by
      rw [← h.dests_eq hcontrol]
      exact List.mem_map_of_mem he
    rcases Instr.successor_cases hdest with ⟨hnext, plain | ⟨kind, hbranch⟩⟩ | target
    · rw [hcontrol] at plain
      cases plain
    · have hpast : c.method.length ≤ i.next := by
        by_contra inside
        have transfers : i.transfers = true := by simp [Instr.transfers, hcontrol]
        exact hnone _ (Method.startsBlock_of_transfers hi transfers (Nat.lt_of_not_le inside)) hnext
      have hend := (c.method.contiguous.bounds hi).2
      exact ⟨by omega, i, hi, kind, hbranch, (h.edge he).1.symm, hnext.symm⟩
    · exact absurd rfl (hnone _ (Method.startsBlock_of_target hi target))

namespace Compiler

variable {c : Compiler} {x : ExternTable}

/-- A compilation that comes to the walk has a journal that does. -/
theorem Comes.exists_reached (standard : c.lowering = .standard) {w : Walk} {edges : List Edge}
    (h : c.Comes x w edges) : ∃ j : Journal, j.Reached c x ∧ j.walk = w ∧ j.pending = edges := by
  induction h with
  | @begin w w' edges prologue enter =>
    have hbegin : c.begin x = .ok ⟨w', edges ++ [], [],
        [] ++ (w.visit? none 0 { max := c.method.stackMax } edges).toList⟩ := by
      unfold Compiler.begin noteEntry
      rw [prologue]
      simp only [bind, Except.bind]
      rw [enter]
      rfl
    exact ⟨_, (reached_of_begin standard hbegin).1, rfl, List.append_nil _⟩
  | @follow w w' e rest edges _ follow ih =>
    obtain ⟨j, reached, rfl, hp⟩ := ih
    have hadvance := advance_cons (c := c) hp
    rw [follow] at hadvance
    cases ha : c.advance j with
    | error err => rw [ha] at hadvance; cases hadvance
    | ok j' =>
      rw [ha] at hadvance
      obtain ⟨hwalk, hpending⟩ := Prod.mk.inj (Except.ok.inj hadvance)
      exact ⟨j', .step reached (step_of_advance standard reached.tidy hp ha), hwalk, hpending⟩

/-- Where following the edges fails, the compilation comes to the edge that cannot be followed. -/
theorem Comes.exists_failed {edges : List Edge} {w : Walk} {err : CompileError}
    (h : c.Comes x w edges) (failed : (c.visit edges w).result = .error err) :
    ∃ w' e rest, c.Comes x w' (e :: rest) ∧ (c.follow e w').result = .error err := by
  fun_induction visit c edges w with
  | case1 => cases failed
  | case2 w e rest step err' hs => cases failed; exact ⟨w, e, rest, h, hs⟩
  | case3 w e rest step w' new hs after ih => exact ih (.follow h hs) failed

/-- Where a compilation fails, an edge cannot be followed, or the block at position 0 not entered. -/
theorem exists_failed_of_compile (standard : c.lowering = .standard) {err : CompileError}
    (failed : (c.compile x).result = .error err) :
    c.method.MeetsFault x err ∨
      ∃ w e rest, c.Comes x w (e :: rest) ∧ (c.follow e w).result = .error err := by
  unfold compile at failed
  rcases Traced.result_bind_eq_error failed with h₁ | ⟨w, h₁, ha⟩
  · exact absurd h₁ (prologue_ne_error standard)
  rcases Traced.result_bind_eq_error ha with h₂ | ⟨⟨w', edges⟩, h₂, hb⟩
  · exact .inl ((stuck_of_first standard h₁ h₂).meetsFault standard)
  rcases Traced.result_bind_eq_error hb with h₃ | ⟨w'', -, hc⟩
  · exact .inr (Comes.exists_failed (.begin h₁ h₂) h₃)
  · rcases Traced.result_bind_eq_error hc with h₄ | ⟨_, -, h₅⟩
    · cases h₄
    · cases h₅

/-- The block that is entered has room for its phi, and its table divides the method. -/
theorem Enters.joins (standard : c.lowering = .standard) {start : Nat} {s : OperandStack} {w : Walk}
    (h : c.Enters x start s w) {b : BasicBlock} (found : w.table.block? start = some b)
    (fresh : b.compiled = false) :
    w.table.Divides c.method ∧ ∃ r, join b s (w.builder.switchTo b.handle) = .ok r := by
  have joins {depth : Nat} (hdepth : (if b.pending = [] then s.depth else s.depth + 1) = depth)
      (max : s.max = c.method.stackMax) (room : depth ≤ c.method.stackMax) :
      ∃ r, join b s (w.builder.switchTo b.handle) = .ok r := by
    cases hj : join b s (w.builder.switchTo b.handle) with
    | ok r => exact ⟨r, rfl⟩
    | error e => exact absurd hj (join_ne_error (by rw [hdepth, max]; exact room))
  cases h with
  | first prologue =>
    have blank := blank_of_prologue standard prologue
    have hpending := (blank.fresh b (BlockTable.of_block?_eq_some found).1).2.2.1
    exact ⟨blank.divides, joins (if_pos hpending) rfl (Nat.zero_le _)⟩
  | @along w₀ _ e rest _ before arrive =>
    obtain ⟨j, reached, rfl, hp⟩ := before.exists_reached standard
    have he : e ∈ j.pending := by rw [hp]; exact List.mem_cons_self
    obtain ⟨divides, -, hdepth, hmax, room⟩ := reached.entry_of_arrive he arrive found fresh
    exact ⟨divides, joins hdepth hmax room⟩

end Compiler

/-- The standard lowering never reports that code is not in order, and refuses an edge only if the table
notes otherwise of its block than the edge has it. For every look-up succeeds: the prologue finds the
first block; where an edge finds no block it leads past the end of the code, after a branch; a value
that is not refused finds a phi that takes it or a block that is still to be entered; and a block that
is entered has room for its phi and finds the register code of every block it leads to. -/
theorem lookups_succeed (c : Compiler) (x : ExternTable) (standard : c.lowering = .standard) :
    (∀ e, (c.compile x).result ≠ .error (.code e)) ∧
    (∀ position source, (c.compile x).result = .error (.inconsistentMerge position source) →
      ∃ w e rest, c.Comes x w (e :: rest) ∧ e.dest = position ∧ e.source = source ∧
        w.Disagrees e) ∧
    (∃ w b, (c.prologue x).result = .ok w ∧ w.table.block? 0 = some b) ∧
    (∀ w e rest, c.Comes x w (e :: rest) →
      (w.table.block? e.dest = none → c.RunsOff e.source e.dest) ∧
      ∀ b r, w.table.block? e.dest = some b → e.stack.top? = some r →
        b.carries ≠ some false →
        (b.merge = none → b.compiled = false) ∧
        ∀ phi, b.merge = some phi →
          (w.builder.addPhiSource? b.handle phi (e.pred, r)).isSome) ∧
    ∀ start s w, c.Enters x start s w → ∀ b, w.table.block? start = some b → b.compiled = false →
      (∃ r, Compiler.join b s (w.builder.switchTo b.handle) = .ok r) ∧
      ∀ t, t.sites = w.table.sites → c.Finds t b := by
  refine ⟨fun e failed => ?_, fun position source failed => ?_, ?_, fun w e rest comes => ?_,
    fun start s w enters b found fresh => ?_⟩
  · cases Compiler.exhibits_of_error standard failed with
    | fault _ _ faults => cases faults
  · rcases Compiler.exists_failed_of_compile standard failed with
      ⟨_, _, _, -, -, faults⟩ | ⟨w, e, rest, comes, hfollow⟩
    · cases faults
    · obtain ⟨j, reached, rfl, hp⟩ := comes.exists_reached standard
      have he : e ∈ j.pending := by rw [hp]; exact List.mem_cons_self
      rcases reached.refused_or_meetsFault standard he hfollow with
        refused | ⟨_, _, _, -, -, faults⟩
      · obtain ⟨herr, disagrees⟩ := reached.disagrees_of_arrive refused
        cases herr
        exact ⟨_, e, rest, comes, rfl, rfl, disagrees⟩
      · cases faults
  · cases hw : (c.prologue x).result with
    | error e => exact absurd hw (Compiler.prologue_ne_error standard)
    | ok w =>
      have blank := Compiler.blank_of_prologue standard hw
      obtain ⟨b, -, -, hb⟩ := blank.divides.exists_block c.method.zero_mem_blockStarts
      exact ⟨w, b, rfl, hb⟩
  · obtain ⟨j, reached, rfl, hp⟩ := comes.exists_reached standard
    have he : e ∈ j.pending := by rw [hp]; exact List.mem_cons_self
    refine ⟨fun absent => ?_, fun b r found top takes => ?_⟩
    · obtain ⟨v, hv, hev⟩ := (reached.linked.edges e).mp (.inr he)
      obtain ⟨code, -, straight, ending, s, -, -, -, hending⟩ := reached.coded.filled v hv
      exact hending.runsOff reached.tidy.divides hev absent
    · rcases reached.noted found with
        ⟨hfresh, hmerge, -⟩ | ⟨v, hv, -, hhandle, -, hmerge, -, hcarries⟩
      · refine ⟨fun _ => hfresh, fun phi hphi => ?_⟩
        rw [hmerge] at hphi
        cases hphi
      · rw [hcarries, ne_eq, Option.some.injEq, Bool.not_eq_false] at takes
        refine ⟨fun hnone => ?_, fun phi hphi => ?_⟩
        · rw [hmerge] at hnone
          rw [hnone] at takes
          cases takes
        · rw [← hhandle]
          exact reached.isSome_addPhiSource? hv (hmerge.symm.trans hphi) (e.pred, r)
  · obtain ⟨divides, joins⟩ := enters.joins standard found fresh
    exact ⟨joins, fun t sites => (divides.of_sites sites).finds b⟩

/-- The edge along which the branch of `lacking` is taken is refused: it brings no value to the block
that was entered with one. -/
theorem lacking_disagrees : (lacking.compile .standard).result = .error (.inconsistentMerge 4 1) ∧
    ∃ w e rest, lacking.Comes .standard w (e :: rest) ∧ e.dest = 4 ∧ e.source = 1 ∧
      w.Disagrees e := by
  have failed : (lacking.compile .standard).result = .error (.inconsistentMerge 4 1) := by cbv
  exact ⟨failed, (lookups_succeed lacking .standard rfl).2.1 4 1 failed⟩

end StackFlow
