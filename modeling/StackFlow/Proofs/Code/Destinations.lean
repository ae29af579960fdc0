import StackFlow.Proofs.Code.Blocks
import StackFlow.Proofs.Code.Paths

/-!
Where the transfers of a method lead: each has the operands that its opcode asks for, so a jump has a
destination and a dispatch a table, and a basic block starts wherever one leads. A transfer is the
last instruction of its block.
-/
namespace StackFlow

open IR (BlockId)

namespace Opcode

theorem layout_of_offset {op : Opcode}
    (h : op.control = some .jump ∨ ∃ kind, op.control = some (.branch kind)) :
    op.layout = some [.offset] := by
  rcases h with h | ⟨kind, h⟩ <;> cases op <;> first | rfl | cases h

theorem eq_caseDispatch_of_control {op : Opcode} (h : op.control = some .dispatch) :
    op = .caseDispatch := by
  cases op <;> first | rfl | cases h

theorem eq_throw_of_control {op : Opcode} (h : op.control = some (.exit .throw)) : op = .throw := by
  cases op <;> first | rfl | cases h

end Opcode

namespace Instr

theorem position?_of_nonneg {t : Int} (h : 0 ≤ t) : position? t = some t.toNat := if_pos h

/-- Operands as those of a dispatch table are read as one. -/
theorem isSome_entries? (i : Instr) {n : Nat} {operands : List Operand}
    (kinds : operands.map Operand.kind =
      (List.replicate n [OperandKind.value, .offset]).flatten ++ [.offset])
    (nonneg : ∀ w, .offset w ∈ operands → 0 ≤ i.target w) :
    ∃ cases other, i.entries? operands = some (cases, other) := by
  induction n generalizing operands with
  | zero =>
    obtain ⟨o, rfl, ho⟩ := List.map_eq_singleton_iff.mp kinds
    cases o with
    | offset w =>
      refine ⟨[], (i.target w).toNat, ?_⟩
      rw [entries?, position?_of_nonneg (nonneg w (List.mem_singleton_self _))]
      rfl
    | literal w => cases ho
    | value v => cases ho
  | succ n ih =>
    rw [List.replicate_succ, List.flatten_cons, List.append_assoc] at kinds
    obtain ⟨k, rest, rfl, hk, hrest⟩ := List.map_eq_cons_iff.mp kinds
    obtain ⟨o, more, rfl, ho, hmore⟩ := List.map_eq_cons_iff.mp hrest
    obtain ⟨cases, other, hentries⟩ := ih hmore fun w hw =>
      nonneg w (List.mem_cons_of_mem _ (List.mem_cons_of_mem _ hw))
    cases k with
    | value key =>
      cases o with
      | offset w =>
        refine ⟨(key, (i.target w).toNat) :: cases, other, ?_⟩
        rw [entries?, position?_of_nonneg (nonneg w (by simp)), hentries]
        rfl
      | literal w => cases ho
      | value v => cases ho
    | literal w => cases hk
    | offset w => cases hk

theorem mem_targets_of_offset {i : Instr} {w : Word} (hw : .offset w ∈ i.operands) :
    i.target w ∈ i.targets := List.mem_filterMap.mpr ⟨_, hw, rfl⟩

/-- After the number of cases come the keys and offsets of a dispatch. -/
theorem Whole.table_operands {i : Instr} (whole : i.Whole) (op : i.opcode = .caseDispatch) :
    ∃ n count rest, i.operands = .literal count :: rest ∧ rest.map Operand.kind =
      (List.replicate n [OperandKind.value, .offset]).flatten ++ [.offset] := by
  have layout : i.opcode.layout = none := by rw [op]; rfl
  rw [Whole, Opcode.kinds, layout, Option.getD_none] at whole
  obtain ⟨o, rest, hops, hkind, hrest⟩ := List.map_eq_cons_iff.mp whole
  cases o with
  | literal count => exact ⟨_, count, rest, hops, hrest⟩
  | value v => cases hkind
  | offset w => cases hkind

/-- A whole dispatch whose offsets do not lead before the code has a table. -/
theorem Whole.exists_dispatchTable? {i : Instr} (whole : i.Whole) (op : i.opcode = .caseDispatch)
    (nonneg : ∀ t ∈ i.targets, 0 ≤ t) :
    ∃ cases other, i.dispatchTable? = some (cases, other) := by
  obtain ⟨n, count, rest, hops, hrest⟩ := whole.table_operands op
  obtain ⟨cases, other, hentries⟩ := i.isSome_entries? hrest fun w hw =>
    nonneg _ (mem_targets_of_offset (by rw [hops]; exact List.mem_cons_of_mem _ hw))
  refine ⟨cases, other, ?_⟩
  rw [dispatchTable?, if_pos op, hops]
  exact hentries

end Instr

namespace Method

variable {m : Method} {i : Instr}

/-- A jump or a branch leads somewhere. -/
theorem exists_jumpTarget? (hi : i ∈ m.instrs) (op : i.opcode.layout = some [.offset]) :
    ∃ dest, i.jumpTarget? = some dest ∧ (dest : Int) ∈ i.targets := by
  have kinds := whole hi
  rw [Instr.Whole, Opcode.kinds_of_layout op] at kinds
  obtain ⟨o, hops, ho⟩ := List.map_eq_singleton_iff.mp kinds
  cases o with
  | offset w =>
    have hmem : i.target w ∈ i.targets := Instr.mem_targets_of_offset (by rw [hops]; simp)
    have hnonneg := (holds_target hi hmem).1
    have htargets : i.targets = [i.target w] := by
      unfold Instr.targets
      rw [hops]
      rfl
    refine ⟨(i.target w).toNat, ?_, by rw [Int.toNat_of_nonneg hnonneg]; exact hmem⟩
    unfold Instr.jumpTarget?
    rw [htargets]
    exact Instr.position?_of_nonneg hnonneg
  | literal w => cases ho
  | value v => cases ho

/-- A dispatch has a table. -/
theorem exists_dispatchTable? (hi : i ∈ m.instrs) (op : i.opcode = .caseDispatch) :
    ∃ cases other, i.dispatchTable? = some (cases, other) ∧
      ∀ p ∈ other :: cases.map Prod.snd, (p : Int) ∈ i.targets := by
  obtain ⟨cases, other, table⟩ :=
    (whole hi).exists_dispatchTable? op fun t ht => (holds_target hi ht).1
  exact ⟨cases, other, table, Instr.mem_targets_of_dispatchTable? table⟩

/-- Whether an instruction is taken on its own or as one of the method makes no difference to where it
leads. -/
theorem resolved_eq (short : m.length ≤ Code.maxTarget + 1) (hi : i ∈ m.instrs) :
    i.resolvedJump? = i.jumpTarget? ∧ i.resolvedTable? = i.dispatchTable? := by
  have fits : i.resolved = i.targets.map some :=
    List.map_congr_left fun t ht => if_pos (target_le short hi ht)
  constructor
  · unfold Instr.resolvedJump? Instr.jumpTarget?
    rw [fits, List.head?_map]
    cases i.targets.head? <;> rfl
  · unfold Instr.resolvedTable?
    rw [fits, if_pos (by simp)]

theorem startsBlock_of_target (hi : i ∈ m.instrs) {p : Nat} (hp : (p : Int) ∈ i.targets) :
    p ∈ m.blockStarts := by
  refine mem_blockStarts.mpr ⟨?_, ?_⟩
  · have := (holds_target hi hp).2.lt_length
    omega
  · simp only [startsBlock, Bool.or_eq_true, List.any_eq_true, List.contains_iff_mem]
    exact .inr ⟨i, hi, .inl hp⟩

theorem startsBlock_of_transfers (hi : i ∈ m.instrs) (transfers : i.transfers = true)
    (inside : i.next < m.length) : i.next ∈ m.blockStarts := by
  refine mem_blockStarts.mpr ⟨inside, ?_⟩
  simp only [startsBlock, Bool.or_eq_true, List.any_eq_true, Bool.and_eq_true, beq_iff_eq]
  exact .inr ⟨i, hi, .inr ⟨transfers, rfl⟩⟩

/-- A path goes on over instructions that do not transfer control. -/
theorem Reaches.along {m : Method} {is : List Instr} {p q : Nat} {d : Int} (path : m.Reaches p d)
    (spans : Code.Contiguous p is q) (mem : ∀ i ∈ is, i ∈ m.instrs)
    (plain : ∀ i ∈ is, i.opcode.control = none) : ∃ d', m.Reaches q d' := by
  induction is generalizing p d with
  | nil =>
    cases spans
    exact ⟨d, path⟩
  | cons i is ih =>
    obtain ⟨rfl, spans⟩ := spans
    have found := instrAt?_eq_some_iff.mpr ⟨mem i List.mem_cons_self, rfl⟩
    have next : i.next ∈ i.successors := by simp [Instr.successors, plain i List.mem_cons_self]
    exact ih (path.step found next) spans (fun k hk => mem k (List.mem_cons_of_mem i hk))
      fun k hk => plain k (List.mem_cons_of_mem i hk)

theorem zero_mem_blockStarts (m : Method) : 0 ∈ m.blockStarts :=
  mem_blockStarts.mpr ⟨m.length_pos, rfl⟩

end Method

namespace BlockTable.Covers

variable {t : BlockTable} {m : Method}

/-- A block starts at each start. -/
theorem exists_block (h : t.Covers m) {p : Nat} (hp : p ∈ m.blockStarts) :
    ∃ b ∈ t.blocks, b.start = p ∧ t.block? p = some b := by
  rw [← h.starts_eq] at hp
  obtain ⟨b, hb, rfl⟩ := List.mem_map.mp hp
  exact ⟨b, hb, rfl, (block?_eq_some_iff h.nodup).mpr ⟨hb, rfl⟩⟩

/-- A transfer ends its block. -/
theorem next_of_transfers (h : t.Covers m) {b : BasicBlock} (hb : b ∈ t.blocks) {i : Instr}
    (hi : i ∈ m.instrsIn b.start b.last) (transfers : i.transfers = true) :
    i.next = b.last + 1 := by
  have hbounds := (h.body hb).bounds hi
  have hnext := i.position_lt_next
  obtain ⟨-, hafter⟩ := h.after hb
  by_contra hne
  have hstarts : i.next ∈ m.blockStarts := by
    apply Method.startsBlock_of_transfers (Method.mem_of_mem_instrsIn hi) transfers
    rcases hafter with ⟨hend, -⟩ | ⟨hlt, -⟩ <;> omega
  obtain ⟨k, hk, hks, -⟩ := h.exists_block hstarts
  have hkl := (h.after hk).1
  have hsame : b = k := h.eq_of_within hb hk (p := i.next) (by omega) (by omega)
  rw [← hsame] at hks
  omega

/-- A block has a last instruction, and only that one can transfer control. -/
theorem exists_last (h : t.Covers m) {b : BasicBlock} (hb : b ∈ t.blocks) :
    ∃ before i, m.instrsIn b.start b.last = before ++ [i] ∧ i.next = b.last + 1 ∧
      (m.instrsIn b.start b.last).findSome? (fun i => i.opcode.control.map (i, ·)) =
        i.opcode.control.map (i, ·) ∧
      Code.Contiguous b.start before i.position ∧ ∀ k ∈ before, k.opcode.control = none := by
  have hbody := h.body hb
  have hle := (h.after hb).1
  rcases List.eq_nil_or_concat' (m.instrsIn b.start b.last) with hnil | ⟨before, i, hsplit⟩
  · rw [hnil] at hbody
    have : b.start = b.last + 1 := hbody
    omega
  rw [hsplit] at hbody
  obtain ⟨q, hbefore, rfl, hend⟩ := Code.Contiguous.append_iff.mp hbody
  have hlast : i.next = b.last + 1 := hend
  have plain : ∀ k ∈ before, k.opcode.control = none := by
    intro k hk
    rw [← Option.not_isSome_iff_eq_none]
    intro transfers
    have hnext := h.next_of_transfers hb (by rw [hsplit]; exact List.mem_append_left _ hk) transfers
    have := (hbefore.bounds hk).2
    have := i.position_lt_next
    omega
  refine ⟨before, i, hsplit, hlast, ?_, hbefore, plain⟩
  have hnone : before.findSome? (fun i => i.opcode.control.map (i, ·)) = none := by
    rw [List.findSome?_eq_none_iff]
    intro k hk
    rw [plain k hk]
    rfl
  rw [hsplit, List.findSome?_append, hnone]
  simp

/-- A path that comes to a block comes to its last instruction. -/
theorem exists_reaches_last (h : t.Covers m) {b : BasicBlock} (hb : b ∈ t.blocks) {d : Int}
    (path : m.Reaches b.start d) :
    ∃ i ∈ m.instrs, i.next = b.last + 1 ∧ (∃ d', m.Reaches i.position d') ∧
      (m.instrsIn b.start b.last).findSome? (fun i => i.opcode.control.map (i, ·)) =
        i.opcode.control.map (i, ·) := by
  obtain ⟨before, i, hsplit, hlast, hexit, hspans, plain⟩ := h.exists_last hb
  have mem {k : Instr} (hk : k ∈ before ++ [i]) : k ∈ m.instrs :=
    Method.mem_of_mem_instrsIn (hsplit ▸ hk)
  have last := path.along hspans (fun k hk => mem (List.mem_append_left _ hk)) plain
  exact ⟨i, mem (by simp), hlast, last, hexit⟩

/-- The straight part of a block leads up to its transfer, if it has one. -/
theorem exists_transfer_at (h : t.Covers m) {b : BasicBlock} (hb : b ∈ t.blocks) :
    ∃ q, Code.Contiguous b.start ((m.instrsIn b.start b.last).takeWhile (!·.transfers)) q ∧
      ∀ i control, (m.instrsIn b.start b.last).findSome? (fun i => i.opcode.control.map (i, ·)) =
        some (i, control) → i ∈ m.instrs ∧ i.position = q ∧ i.opcode.control = some control := by
  have hbody := h.body hb
  rcases Instr.split_at_transfer (m.instrsIn b.start b.last) with
    ⟨i, control, after, hsplit, hcontrol, hfind⟩ | ⟨hall, hfind⟩
  · rw [hsplit] at hbody
    obtain ⟨q, hspans, hp, -⟩ := Code.Contiguous.append_iff.mp hbody
    refine ⟨q, hspans, fun k control' hk => ?_⟩
    rw [hfind] at hk
    cases hk
    exact ⟨Method.mem_of_mem_instrsIn (by rw [hsplit]; simp), hp, hcontrol⟩
  · refine ⟨b.last + 1, by rw [hall]; exact hbody, fun k control hk => ?_⟩
    rw [hfind] at hk
    cases hk

end BlockTable.Covers

end StackFlow
