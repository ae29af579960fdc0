import Mathlib.Data.List.Sort
import StackFlow.Proofs.Code.Acceptance
import StackFlow.Proofs.Code.Partition

/-!
Code whose instructions do the same as those of other code, at positions of their own. Main statements:
the one is accepted just if the other is (`Code.Corresponds.wellFormed_iff`), and then the basic blocks
of the two correspond (`Method.blockStarts_eq_map`, `Method.forall₂_instrsIn`).
-/
namespace StackFlow

section Lists

variable {α β : Type} {R : α → β → Prop} {xs : List α} {ys : List β}

theorem forall_mem_iff_of_forall₂ {P : α → Prop} {Q : β → Prop} (same : ∀ a b, R a b → (Q b ↔ P a))
    (h : List.Forall₂ R xs ys) : (∀ b ∈ ys, Q b) ↔ ∀ a ∈ xs, P a := by
  induction h with
  | nil => simp
  | cons first _ ih => rw [List.forall_mem_cons, List.forall_mem_cons, same _ _ first, ih]

theorem forall₂_mem (h : List.Forall₂ R xs ys) :
    List.Forall₂ (fun a b => R a b ∧ a ∈ xs ∧ b ∈ ys) xs ys := by
  induction h with
  | nil => exact .nil
  | @cons a b _ _ first _ ih =>
    refine .cons ⟨first, List.mem_cons_self, List.mem_cons_self⟩ (ih.imp fun c d hcd => ?_)
    exact ⟨hcd.1, List.mem_cons_of_mem a hcd.2.1, List.mem_cons_of_mem b hcd.2.2⟩

theorem exists_rel_of_mem_right (h : List.Forall₂ R xs ys) {b : β} (hb : b ∈ ys) :
    ∃ a ∈ xs, R a b := by
  induction h with
  | nil => cases hb
  | @cons a _ xs _ first _ ih =>
    rcases List.mem_cons.mp hb with rfl | hb
    · exact ⟨a, List.mem_cons_self, first⟩
    · obtain ⟨c, hc, hcb⟩ := ih hb
      exact ⟨c, List.mem_cons_of_mem a hc, hcb⟩

theorem exists_mem_iff_of_forall₂ {P : α → Prop} {Q : β → Prop} (same : ∀ a b, R a b → (Q b ↔ P a))
    (h : List.Forall₂ R xs ys) : (∃ b ∈ ys, Q b) ↔ ∃ a ∈ xs, P a := by
  have hnot := forall_mem_iff_of_forall₂ (fun a b hab => not_congr (same a b hab)) h
  simpa only [not_forall, not_not, exists_prop] using not_congr hnot

variable {p : α → Bool} {q : β → Bool}

theorem forall₂_takeWhile (same : ∀ a b, R a b → q b = p a) (h : List.Forall₂ R xs ys) :
    List.Forall₂ R (xs.takeWhile p) (ys.takeWhile q) := by
  induction h with
  | nil => exact .nil
  | @cons a b xs ys first _ ih =>
    rw [List.takeWhile_cons, List.takeWhile_cons, same a b first]
    split
    · exact .cons first ih
    · exact .nil

theorem forall₂_dropWhile (same : ∀ a b, R a b → q b = p a) (h : List.Forall₂ R xs ys) :
    List.Forall₂ R (xs.dropWhile p) (ys.dropWhile q) := by
  induction h with
  | nil => exact .nil
  | @cons a b xs ys first rest ih =>
    rw [List.dropWhile_cons, List.dropWhile_cons, same a b first]
    split
    · exact ih
    · exact .cons first rest

end Lists

variable {φ : Nat → Nat}

namespace Instr

/-- The instruction pushes a constant or sends a method. -/
def PushesOrSends (i : Instr) : Prop := (∃ w, i.constant? = some w) ∨ ∃ call, i.sends? = some call

/-- The instructions do the same: they name the same opcode and operands, or push the same constant or
send the same method, or lead to positions that correspond. -/
inductive Alike (φ : Nat → Nat) (i i' : Instr) : Prop
  | plain {kinds : List OperandKind} (line : i'.line = i.line) (layout : i.opcode.layout = some kinds)
      (level : .offset ∉ kinds)
  | special (pushes : i'.constant? = i.constant?) (sends : i'.sends? = i.sends?)
      (special : i.PushesOrSends)
  | jump {p : Nat} (opcode : i'.opcode = i.opcode) (layout : i.opcode.layout = some [.offset])
      (leads : i.jumpTarget? = some p) (leads' : i'.jumpTarget? = some (φ p))
  | dispatch {cases : List (Value × Nat)} {other : Nat}
      (table : i.dispatchTable? = some (cases, other))
      (table' : i'.dispatchTable? = some (cases.map fun c => (c.1, φ c.2), φ other))

structure Relocates (φ : Nat → Nat) (i i' : Instr) : Prop where
  whole : i.Whole
  whole' : i'.Whole
  position_eq : i'.position = φ i.position
  next_eq : i'.next = φ i.next
  alike : i.Alike φ i'

theorem opcode_of_dispatchTable? {i : Instr} {table : List (Value × Nat) × Nat}
    (h : i.dispatchTable? = some table) : i.opcode = .caseDispatch := by
  unfold dispatchTable? at h
  split at h
  next op => exact op
  next => cases h

theorem targets_of_entries? {i : Instr} {operands : List Operand} {cases : List (Value × Nat)}
    {other : Nat} (h : i.entries? operands = some (cases, other)) :
    (operands.filterMap fun
      | .offset w => some (i.target w)
      | _ => none) = (cases.map Prod.snd ++ [other]).map (fun p : Nat => (p : Int)) := by
  fun_induction i.entries? operands generalizing cases other with
  | case1 w =>
    obtain ⟨p, hp, he⟩ := Option.bind_eq_some_iff.mp h
    cases he
    simp [eq_of_position? hp]
  | case2 key w rest ih =>
    obtain ⟨dest, hd, h₁⟩ := Option.bind_eq_some_iff.mp h
    obtain ⟨⟨more, last⟩, hm, he⟩ := Option.bind_eq_some_iff.mp h₁
    cases he
    simp [ih hm, eq_of_position? hd]
  | case3 => cases h

namespace Whole

variable {i : Instr} (whole : i.Whole)

include whole

theorem targets_eq_nil {kinds : List OperandKind} (layout : i.opcode.layout = some kinds)
    (level : .offset ∉ kinds) : i.targets = [] := by
  rw [Whole, Opcode.kinds_of_layout layout] at whole
  refine List.filterMap_eq_nil_iff.mpr fun o ho => ?_
  cases o with
  | offset w => exact absurd (whole ▸ List.mem_map_of_mem ho) level
  | literal w => rfl
  | value v => rfl

theorem targets_of_jumpTarget? (layout : i.opcode.layout = some [.offset]) {p : Nat}
    (leads : i.jumpTarget? = some p) : i.targets = [(p : Int)] := by
  rw [Whole, Opcode.kinds_of_layout layout] at whole
  obtain ⟨o, hops, ho⟩ := List.map_eq_singleton_iff.mp whole
  cases o with
  | offset w =>
    have htargets : i.targets = [i.target w] := by
      unfold targets
      rw [hops]
      rfl
    rw [jumpTarget?, htargets] at leads
    rw [htargets, eq_of_position? leads]
  | literal w => cases ho
  | value v => cases ho

theorem targets_of_dispatchTable? {cases : List (Value × Nat)} {other : Nat}
    (table : i.dispatchTable? = some (cases, other)) :
    i.targets = (cases.map Prod.snd ++ [other]).map (fun p : Nat => (p : Int)) := by
  have op := opcode_of_dispatchTable? table
  obtain ⟨n, count, rest, hops, -⟩ := whole.table_operands op
  rw [dispatchTable?, if_pos op, hops, List.tail_cons] at table
  unfold targets
  rw [hops, List.filterMap_cons]
  exact targets_of_entries? table

end Whole

/-- Such an instruction leads nowhere and names no local. -/
theorem PushesOrSends.layout {i : Instr} (h : i.PushesOrSends) :
    ∃ kinds, i.opcode.layout = some kinds ∧ .offset ∉ kinds ∧ i.opcode.control = none ∧
      ¬ (i.opcode = .getLocal ∨ i.opcode = .setLocal) := by
  rcases h with ⟨w, h⟩ | ⟨call, h⟩
  · unfold constant? at h
    cases hop : i.opcode <;> rw [hop] at h <;>
      first | cases h; done | simp [Opcode.layout, Opcode.control]
  · unfold sends? at h
    cases hop : i.opcode <;> rw [hop] at h <;>
      first | cases h; done | simp [Opcode.layout, Opcode.control]

theorem word_eq_line (i : Instr) (slot : Nat) : i.word slot = (i.line.2[slot]?).getD 0 := by
  rw [word, line, List.getElem?_map]
  cases i.operands[slot]? <;> rfl

theorem keysDiffer_of_layout {i : Instr} {kinds : List OperandKind}
    (layout : i.opcode.layout = some kinds) : i.KeysDiffer := by
  intro op
  rw [op] at layout
  cases layout

theorem PushesOrSends.inFrame {i : Instr} (h : i.PushesOrSends) (locals : Nat) :
    i.InFrame locals := by
  obtain ⟨-, -, -, -, hnot⟩ := h.layout
  exact fun op => absurd op hnot

theorem PushesOrSends.congr {i i' : Instr} (h : i.PushesOrSends)
    (pushes : i'.constant? = i.constant?) (sends : i'.sends? = i.sends?) : i'.PushesOrSends := by
  unfold PushesOrSends
  rw [pushes, sends]
  exact h

namespace Alike

variable {i i' : Instr} (h : i.Alike φ i')

include h

theorem opcode_eq_or : i'.opcode = i.opcode ∨ i.PushesOrSends ∧ i'.PushesOrSends := by
  cases h with
  | plain line => exact .inl (congrArg Prod.fst line)
  | special pushes sends either => exact .inr ⟨either, either.congr pushes sends⟩
  | jump opcode => exact .inl opcode
  | dispatch table table' =>
    exact .inl ((opcode_of_dispatchTable? table').trans (opcode_of_dispatchTable? table).symm)

theorem control_eq : i'.opcode.control = i.opcode.control := by
  rcases h.opcode_eq_or with same | ⟨special, special'⟩
  · rw [same]
  · obtain ⟨-, -, -, hnone, -⟩ := special.layout
    obtain ⟨-, -, -, hnone', -⟩ := special'.layout
    rw [hnone, hnone']

theorem opcode_eq {control : Control} (transfers : i.opcode.control = some control) :
    i'.opcode = i.opcode := by
  refine h.opcode_eq_or.resolve_right fun special => ?_
  obtain ⟨-, -, -, hnone, -⟩ := special.1.layout
  rw [transfers] at hnone
  cases hnone

theorem inFrame_iff (locals : Nat) : i'.InFrame locals ↔ i.InFrame locals := by
  cases h with
  | plain line =>
    have opcode : i'.opcode = i.opcode := congrArg Prod.fst line
    rw [InFrame, InFrame, opcode, word_eq_line, word_eq_line, line]
  | special pushes sends either =>
    exact iff_of_true ((either.congr pushes sends).inFrame locals) (either.inFrame locals)
  | jump opcode layout =>
    have hnot : ¬ (i.opcode = .getLocal ∨ i.opcode = .setLocal) := by
      rintro (op | op) <;> rw [op] at layout <;> cases layout
    rw [InFrame, InFrame, opcode]
    exact iff_of_true (fun hl => absurd hl hnot) fun hl => absurd hl hnot
  | dispatch table table' =>
    rw [InFrame, InFrame, opcode_of_dispatchTable? table, opcode_of_dispatchTable? table']
    simp

end Alike

namespace Relocates

variable {i i' : Instr} (h : i.Relocates φ i')

include h

theorem transfers_eq : i'.transfers = i.transfers := by
  rw [transfers, transfers, h.alike.control_eq]

theorem keysDiffer_iff : i'.KeysDiffer ↔ i.KeysDiffer := by
  cases h.alike with
  | plain line layout =>
    have opcode : i'.opcode = i.opcode := congrArg Prod.fst line
    exact iff_of_true (keysDiffer_of_layout (opcode ▸ layout)) (keysDiffer_of_layout layout)
  | special pushes sends either =>
    obtain ⟨_, layout, -⟩ := either.layout
    obtain ⟨_, layout', -⟩ := (either.congr pushes sends).layout
    exact iff_of_true (keysDiffer_of_layout layout') (keysDiffer_of_layout layout)
  | jump opcode layout =>
    exact iff_of_true (keysDiffer_of_layout (opcode ▸ layout)) (keysDiffer_of_layout layout)
  | dispatch table table' =>
    have keys := h.whole.keys_eq table
    have keys' := h.whole'.keys_eq table'
    rw [List.map_map] at keys'
    rw [KeysDiffer, KeysDiffer, keys, keys', opcode_of_dispatchTable? table,
      opcode_of_dispatchTable? table']
    rfl

/-- They lead to positions that correspond. -/
theorem exists_targets : ∃ ps : List Nat, i.targets = ps.map (fun p : Nat => (p : Int)) ∧
    i'.targets = ps.map (fun p : Nat => (φ p : Int)) := by
  cases h.alike with
  | plain line layout level =>
    have opcode : i'.opcode = i.opcode := congrArg Prod.fst line
    exact ⟨[], h.whole.targets_eq_nil layout level,
      h.whole'.targets_eq_nil (opcode ▸ layout) level⟩
  | special pushes sends either =>
    obtain ⟨_, layout, level, -⟩ := either.layout
    obtain ⟨_, layout', level', -⟩ := (either.congr pushes sends).layout
    exact ⟨[], h.whole.targets_eq_nil layout level, h.whole'.targets_eq_nil layout' level'⟩
  | @jump p opcode layout leads leads' =>
    exact ⟨[p], h.whole.targets_of_jumpTarget? layout leads,
      h.whole'.targets_of_jumpTarget? (opcode ▸ layout) leads'⟩
  | @dispatch cases other table table' =>
    refine ⟨cases.map Prod.snd ++ [other], h.whole.targets_of_dispatchTable? table, ?_⟩
    rw [h.whole'.targets_of_dispatchTable? table']
    simp

end Relocates

end Instr

namespace Code

variable {instrs instrs' : List Instr} {code code' : List Word} {params locals : Nat}

/-- Instructions that lie end to end and start at positions that correspond end at such positions. -/
theorem Contiguous.forall₂_next {R : Instr → Instr → Prop} {first last first' last' : Nat}
    (h : Contiguous first instrs last) (h' : Contiguous first' instrs' last')
    (starts : List.Forall₂ (fun i i' => i'.position = φ i.position ∧ R i i') instrs instrs')
    (ends : last' = φ last) :
    List.Forall₂ (fun i i' => i'.position = φ i.position ∧ i'.next = φ i.next ∧ R i i')
      instrs instrs' := by
  induction starts generalizing first first' with
  | nil => exact .nil
  | @cons i i' is is' one more ih =>
    have hnext : i'.next = φ i.next := by
      cases more with
      | nil =>
        have hi : i.next = last := h.2
        have hi' : i'.next = last' := h'.2
        rw [hi, hi', ends]
      | cons two _ =>
        rw [← h.2.1, ← h'.2.1]
        exact two.1
    exact .cons ⟨one.1, hnext, one.2⟩ (ih h.2 h'.2)

/-- The instructions of the one code correspond to those of the other one. -/
structure Corresponds (φ : Nat → Nat) (code code' : List Word) (instrs instrs' : List Instr) :
    Prop where
  mono : StrictMono φ
  zero : φ 0 = 0
  length_eq : code'.length = φ code.length
  spells : Spells 0 instrs code
  spells' : Spells 0 instrs' code'
  relocates : List.Forall₂ (Instr.Relocates φ) instrs instrs'

namespace Corresponds

variable (h : Corresponds φ code code' instrs instrs')

include h

theorem landsOn_iff {n : Nat} (p : Nat) :
    LandsOn instrs' (φ n) (φ p : Nat) ↔ LandsOn instrs n (p : Nat) := by
  have found : (∃ j ∈ instrs', (j.position : Int) = (φ p : Nat)) ↔
      ∃ j ∈ instrs, (j.position : Int) = (p : Nat) :=
    exists_mem_iff_of_forall₂ (fun i i' hi => by
      rw [hi.position_eq, Int.natCast_inj, Int.natCast_inj, h.mono.injective.eq_iff]) h.relocates
  rw [LandsOn, LandsOn, found, Int.ofNat_lt, Int.ofNat_lt, h.mono.lt_iff_lt]
  simp

/-- Code whose instructions correspond is accepted on both sides or on neither. -/
theorem wellFormed_iff : WellFormed code' params locals instrs' ↔
    WellFormed code params locals instrs := by
  have nonempty : code' ≠ [] ↔ code ≠ [] := by
    rw [← List.length_pos_iff, ← List.length_pos_iff, h.length_eq]
    nth_rewrite 1 [← h.zero]
    exact h.mono.lt_iff_lt
  have lands : (∀ i ∈ instrs', ∀ t ∈ i.targets, LandsOn instrs' code'.length t) ↔
      ∀ i ∈ instrs, ∀ t ∈ i.targets, LandsOn instrs code.length t := by
    refine forall_mem_iff_of_forall₂ (fun i i' hi => ?_) h.relocates
    obtain ⟨ps, htargets, htargets'⟩ := hi.exists_targets
    rw [htargets, htargets', List.forall_mem_map, List.forall_mem_map, h.length_eq]
    exact forall₂_congr fun p _ => h.landsOn_iff p
  have inFrame :=
    forall_mem_iff_of_forall₂ (fun i i' hi => hi.alike.inFrame_iff locals) h.relocates
  have keysDiffer := forall_mem_iff_of_forall₂ (fun i i' hi => hi.keysDiffer_iff) h.relocates
  constructor
  · intro w
    exact ⟨⟨⟨⟨nonempty.mp w.nonempty, w.params_le, h.spells⟩, lands.mp w.lands⟩,
      inFrame.mp w.inFrame⟩, keysDiffer.mp w.keysDiffer⟩
  · intro w
    exact ⟨⟨⟨⟨nonempty.mpr w.nonempty, w.params_le, h.spells'⟩, lands.mpr w.lands⟩,
      inFrame.mpr w.inFrame⟩, keysDiffer.mpr w.keysDiffer⟩

end Corresponds

end Code

namespace Method

variable {m m' : Method}

variable (h : Code.Corresponds φ m.code m'.code m.instrs m'.instrs)

include h

/-- The blocks of the two methods start at positions that correspond. -/
theorem blockStarts_eq_map : m'.blockStarts = m.blockStarts.map φ := by
  have mono := h.mono
  have ascending : (m.blockStarts.map φ).Pairwise (· < ·) :=
    m.blockStarts_ascending.map φ fun _ _ hlt => mono hlt
  refine m'.blockStarts_ascending.eq_of_mem_iff ascending fun q => ?_
  have starts (p : Nat) : φ p ∈ m'.blockStarts ↔ p ∈ m.blockStarts := by
    have reached : (∃ i ∈ m'.instrs, ((φ p : Nat) : Int) ∈ i.targets) ↔
        ∃ i ∈ m.instrs, (p : Int) ∈ i.targets := by
      refine exists_mem_iff_of_forall₂ (fun i i' hi => ?_) h.relocates
      obtain ⟨ps, htargets, htargets'⟩ := hi.exists_targets
      rw [htargets, htargets']
      simp only [List.mem_map, Int.natCast_inj, mono.injective.eq_iff]
    have behind : (∃ i ∈ m'.instrs, i.transfers = true ∧ i.next = φ p ∧ φ p < m'.length) ↔
        ∃ i ∈ m.instrs, i.transfers = true ∧ i.next = p ∧ p < m.length := by
      refine exists_mem_iff_of_forall₂ (fun i i' hi => ?_) h.relocates
      rw [hi.transfers_eq, hi.next_eq, mono.injective.eq_iff, length, length, h.length_eq,
        mono.lt_iff_lt]
    have hzero : φ p = 0 ↔ p = 0 := by
      nth_rewrite 1 [← h.zero]
      exact mono.injective.eq_iff
    rw [mem_blockStarts_iff, mem_blockStarts_iff, reached, behind, hzero]
  rw [List.mem_map]
  constructor
  · intro hq
    obtain ⟨p, rfl⟩ : ∃ p, φ p = q := by
      obtain rfl | ⟨i', hi', target⟩ | ⟨i', hi', -, rfl, -⟩ := mem_blockStarts_iff.mp hq
      · exact ⟨0, h.zero⟩
      · obtain ⟨i, -, hi⟩ := exists_rel_of_mem_right h.relocates hi'
        obtain ⟨ps, -, htargets'⟩ := hi.exists_targets
        rw [htargets', List.mem_map] at target
        obtain ⟨p, -, hp⟩ := target
        exact ⟨p, Int.natCast_inj.mp hp⟩
      · obtain ⟨i, -, hi⟩ := exists_rel_of_mem_right h.relocates hi'
        exact ⟨i.next, hi.next_eq.symm⟩
    exact ⟨p, (starts p).mp hq, rfl⟩
  · rintro ⟨p, hp, rfl⟩
    exact (starts p).mpr hp

/-- Ranges that correspond hold instructions that correspond. -/
theorem forall₂_instrsIn (first last : Nat) :
    List.Forall₂ (Instr.Relocates φ) (m.instrsIn first last)
      (m'.instrsIn (φ first) (φ (last + 1) - 1)) := by
  have mono := h.mono
  have hpos : 0 < φ (last + 1) := Nat.lt_of_le_of_lt (Nat.zero_le _) (mono (Nat.lt_succ_self last))
  refine forall₂_takeWhile (fun i i' hi => ?_) (forall₂_dropWhile (fun i i' hi => ?_) h.relocates)
  · rw [hi.position_eq, decide_eq_decide, Nat.le_sub_one_iff_lt hpos, mono.lt_iff_lt,
      Nat.lt_succ_iff]
  · rw [hi.position_eq, decide_eq_decide, mono.lt_iff_lt]

end Method

end StackFlow
