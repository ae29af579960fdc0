import StackFlow.Code
import StackFlow.Proofs.Code.Contiguous

/-!
Decoding and encoding are inverse. The decoder accepts a list of words just if it consists of whole
instructions one after the other, and finds these; otherwise it reports the first place where no whole
instruction stands.
-/
namespace StackFlow

namespace Opcode

/-- The words can be the operands of the opcode: as many as it has slots, and for a dispatch table the
number of cases, a key and an offset for each of them and one more offset. -/
inductive Takes : Opcode → List Word → Prop
  | fixed {op : Opcode} {kinds : List OperandKind} {words : List Word}
      (layout : op.layout = some kinds) (count : words.length = kinds.length) : Takes op words
  | table {op : Opcode} {cases : Word} {entries : List Word} (layout : op.layout = none)
      (count : entries.length = 2 * cases.toNat + 1) : Takes op (cases :: entries)

/-- What the opcode prescribes for its operand words, slot by slot. -/
def kinds (op : Opcode) (words : List Word) : List OperandKind :=
  op.layout.getD (Code.tableKinds (words.headD 0).toNat)

theorem kinds_of_layout {op : Opcode} {ks : List OperandKind} (layout : op.layout = some ks)
    (words : List Word) : op.kinds words = ks := by
  rw [kinds, layout, Option.getD_some]

theorem kinds_of_table {op : Opcode} (layout : op.layout = none) (cases : Word)
    (entries : List Word) : op.kinds (cases :: entries) = Code.tableKinds cases.toNat := by
  rw [kinds, layout, Option.getD_none, List.headD_cons]

end Opcode

namespace Code

theorem length_tableKinds (n : Nat) : (tableKinds n).length = 2 * n + 2 := by
  have cases : ((List.replicate n [OperandKind.value, .offset]).flatten).length = 2 * n := by
    simp [List.length_flatten, Nat.mul_comm]
  rw [tableKinds, List.length_append, List.length_cons, cases, List.length_singleton]

end Code

theorem Opcode.takes_iff {op : Opcode} {words : List Word} :
    op.Takes words ↔ words.length = (op.kinds words).length := by
  constructor
  · rintro (⟨layout, count⟩ | ⟨layout, count⟩)
    · rw [kinds_of_layout layout, count]
    · rw [kinds_of_table layout, Code.length_tableKinds, List.length_cons, count]
  · intro h
    cases layout : op.layout with
    | some ks =>
      rw [kinds_of_layout layout] at h
      exact .fixed layout h
    | none =>
      cases words with
      | nil =>
        rw [kinds, layout, Option.getD_none, Code.length_tableKinds] at h
        cases h
      | cons cases entries =>
        rw [kinds_of_table layout, Code.length_tableKinds, List.length_cons] at h
        exact .table layout (by omega)

namespace Instr

/-- Opcode and operand words. -/
def line (i : Instr) : Opcode × List Word := (i.opcode, i.operands.map Operand.word)

/-- The instruction has the operands that its opcode prescribes. -/
def Whole (i : Instr) : Prop :=
  i.operands.map Operand.kind = i.opcode.kinds (i.operands.map Operand.word)

/-- The instruction of a line at a position. -/
def ofLine (position : Nat) (line : Opcode × List Word) : Instr :=
  ⟨position, line.1, List.zipWith Operand.ofWord (line.1.kinds line.2) line.2⟩

/-- Operand words of the right number are read in their slots. -/
theorem ofLine_spec {line : Opcode × List Word} (takes : line.1.Takes line.2) (position : Nat) :
    (ofLine position line).Whole ∧ (ofLine position line).line = line := by
  have zip : ∀ {ks : List OperandKind} {ws : List Word}, ws.length = ks.length →
      (List.zipWith Operand.ofWord ks ws).map Operand.kind = ks ∧
        (List.zipWith Operand.ofWord ks ws).map Operand.word = ws := by
    intro ks
    induction ks with
    | nil => intro ws h; simp [List.length_eq_zero_iff.mp h]
    | cons k ks ih =>
      intro ws h
      cases ws with
      | nil => cases h
      | cons w ws => simp [ih (Nat.succ.inj h)]
  obtain ⟨hkind, hword⟩ := zip (Opcode.takes_iff.mp takes)
  refine ⟨?_, ?_⟩
  · rw [Whole, ofLine, hkind, hword]
  · rw [Instr.line, ofLine, hword]

theorem size_ofLine {line : Opcode × List Word} (takes : line.1.Takes line.2) (position : Nat) :
    (ofLine position line).size = 1 + line.2.length := by
  have words := congrArg Prod.snd (ofLine_spec takes position).2
  rw [size, ← words]
  exact congrArg (1 + ·) (List.length_map _).symm

theorem encode_ofLine {line : Opcode × List Word} (takes : line.1.Takes line.2) (position : Nat) :
    (ofLine position line).encode = line.1.word :: line.2 :=
  congrArg (line.1.word :: ·) (congrArg Prod.snd (ofLine_spec takes position).2)

theorem Whole.takes {i : Instr} (h : i.Whole) : i.opcode.Takes (i.operands.map Operand.word) := by
  rw [Opcode.takes_iff, ← h, List.length_map, List.length_map]

end Instr

namespace Code

/-- The words of the lines, one line after the other. -/
def spell (lines : List (Opcode × List Word)) : List Word :=
  lines.flatMap fun (op, words) => op.word :: words

/-- What stands at the position is not the beginning of a whole instruction. -/
inductive Incomplete (position : Nat) : List Word → CodeError → Prop
  | unknown {w : Word} {rest : List Word} (other : ∀ op : Opcode, op.word ≠ w) :
      Incomplete position (w :: rest) (.invalidOpcode w position)
  | short {op : Opcode} {kinds : List OperandKind} {rest : List Word}
      (layout : op.layout = some kinds) (few : rest.length < kinds.length) :
      Incomplete position (op.word :: rest) (.truncated position)
  | uncounted {op : Opcode} (layout : op.layout = none) :
      Incomplete position [op.word] (.truncated position)
  /-- There are not even words for the cases. -/
  | oversized {op : Opcode} {cases : Word} {rest : List Word} (layout : op.layout = none)
      (few : rest.length < 2 * cases.toNat) :
      Incomplete position (op.word :: cases :: rest) (.invalidDispatchSize cases position)
  /-- Only the last offset of a table is not there. -/
  | unclosed {op : Opcode} {cases : Word} {rest : List Word} (layout : op.layout = none)
      (few : rest.length = 2 * cases.toNat) :
      Incomplete position (op.word :: cases :: rest) (.truncated position)

theorem readOperands_eq_some_iff {kinds : List OperandKind} {words : List Word}
    {operands : List Operand} :
    readOperands kinds words = some operands ↔
      operands.map Operand.kind = kinds ∧ operands.map Operand.word <+: words := by
  induction kinds generalizing words operands with
  | nil =>
    constructor
    · intro h
      cases h
      exact ⟨rfl, List.nil_prefix⟩
    · rintro ⟨h, -⟩
      rw [List.map_eq_nil_iff.mp h, readOperands]
  | cons k ks ih =>
    cases words with
    | nil =>
      refine ⟨nofun, fun ⟨hkinds, hwords⟩ => ?_⟩
      rw [List.map_eq_nil_iff.mp (List.prefix_nil.mp hwords)] at hkinds
      cases hkinds
    | cons w ws =>
      rw [readOperands, Option.map_eq_some_iff]
      constructor
      · rintro ⟨rest, hrest, rfl⟩
        obtain ⟨hkinds, hwords⟩ := ih.mp hrest
        simp only [List.map_cons, Operand.kind_ofWord, Operand.word_ofWord, hkinds, true_and]
        exact List.cons_prefix_cons.mpr ⟨rfl, hwords⟩
      · rintro ⟨hkinds, hwords⟩
        obtain ⟨o, rest, rfl, rfl, hrest⟩ := List.map_eq_cons_iff.mp hkinds
        obtain ⟨rfl, hmore⟩ := List.cons_prefix_cons.mp hwords
        exact ⟨rest, ih.mpr ⟨hrest, hmore⟩, by rw [Operand.ofWord_kind_word]⟩

theorem readOperands_eq_none_iff {kinds : List OperandKind} {words : List Word} :
    readOperands kinds words = none ↔ words.length < kinds.length := by
  induction kinds generalizing words with
  | nil => simp [readOperands]
  | cons k ks ih =>
    cases words with
    | nil => simp [readOperands]
    | cons w ws => simp [readOperands, ih]

/-- The decoder knows how many operands an opcode takes. -/
theorem operandKinds_of_takes {op : Opcode} {words : List Word} (h : op.Takes words)
    (position : Nat) (rest : List Word) :
    operandKinds op position (words ++ rest) = .ok (op.kinds words) := by
  cases h with
  | fixed layout count => simp only [operandKinds, layout, Opcode.kinds_of_layout layout]
  | @table cases entries layout count =>
    have room : ¬ (entries ++ rest).length / 2 < cases.toNat := by
      rw [List.length_append]
      omega
    simp only [operandKinds, layout, List.cons_append, if_neg room, Opcode.kinds_of_table layout]

theorem kinds_of_operandKinds {op : Opcode} {position : Nat} {words rest : List Word}
    {ks : List OperandKind} (h : operandKinds op position rest = .ok ks)
    (length : words.length = ks.length) (front : words <+: rest) : ks = op.kinds words := by
  unfold operandKinds at h
  split at h
  next layout =>
    cases h
    rw [Opcode.kinds_of_layout layout]
  next layout =>
    split at h
    · cases h
    next cases after =>
      split at h
      · cases h
      · cases h
        rw [length_tableKinds] at length
        obtain ⟨w, ws, rfl⟩ := List.exists_cons_of_length_pos (by omega : 0 < words.length)
        obtain ⟨rfl, -⟩ := List.cons_prefix_cons.mp front
        rw [Opcode.kinds_of_table layout]

/-- The decoder finds an instruction just if that is whole and stands there. -/
theorem decode_eq_ok_iff {position : Nat} {code : List Word} {i : Instr} :
    decode position code = .ok i ↔ i.position = position ∧ i.Whole ∧ i.encode <+: code := by
  constructor
  · intro h
    unfold decode at h
    split at h
    · cases h
    next w rest =>
      split at h
      · cases h
      next op known =>
        split at h
        · cases h
        next ks hkinds =>
          split at h
          · cases h
          next operands hread =>
            cases h
            obtain ⟨hkind, hword⟩ := readOperands_eq_some_iff.mp hread
            refine ⟨rfl, ?_, ?_⟩
            · refine hkind.trans (kinds_of_operandKinds hkinds ?_ hword)
              rw [← hkind, List.length_map, List.length_map]
            · exact List.cons_prefix_cons.mpr ⟨Opcode.word_of_ofWord? known, hword⟩
  · rintro ⟨rfl, whole, rest, rfl⟩
    have hkinds := operandKinds_of_takes whole.takes i.position rest
    have hread := readOperands_eq_some_iff.mpr ⟨whole, List.prefix_append _ rest⟩
    simp only [decode, Instr.encode, List.cons_append, Opcode.ofWord?_word, hkinds, hread]

theorem decode_eq_error_iff {position : Nat} {w : Word} {rest : List Word} {e : CodeError} :
    decode position (w :: rest) = .error e ↔ Incomplete position (w :: rest) e := by
  constructor
  · intro h
    unfold decode at h
    dsimp only at h
    split at h
    next unknown =>
      cases h
      refine .unknown fun op hop => ?_
      rw [← hop, Opcode.ofWord?_word] at unknown
      cases unknown
    next op known =>
      obtain rfl := Opcode.word_of_ofWord? known
      split at h
      next hkinds =>
        cases h
        unfold operandKinds at hkinds
        split at hkinds
        · cases hkinds
        next layout =>
          split at hkinds
          next =>
            cases hkinds
            exact .uncounted layout
          next cases after =>
            split at hkinds
            next few =>
              cases hkinds
              exact .oversized layout (by omega)
            next => cases hkinds
      next ks hkinds =>
        split at h
        next hread =>
          cases h
          have few := readOperands_eq_none_iff.mp hread
          unfold operandKinds at hkinds
          split at hkinds
          next layout =>
            cases hkinds
            exact .short layout few
          next layout =>
            split at hkinds
            · cases hkinds
            next cases after =>
              split at hkinds
              · cases hkinds
              next room =>
                cases hkinds
                rw [length_tableKinds, List.length_cons] at few
                exact .unclosed layout (by omega)
        next => cases h
  · intro h
    cases h with
    | unknown other =>
      have none : Opcode.ofWord? w = none := by
        cases known : Opcode.ofWord? w with
        | none => rfl
        | some op => exact absurd (Opcode.word_of_ofWord? known) (other op)
      simp only [decode, none]
    | short layout few =>
      simp only [decode, Opcode.ofWord?_word, operandKinds, layout,
        readOperands_eq_none_iff.mpr few]
    | uncounted layout => simp only [decode, Opcode.ofWord?_word, operandKinds, layout]
    | @oversized op cases rest layout few =>
      have large : rest.length / 2 < cases.toNat := by omega
      simp only [decode, Opcode.ofWord?_word, operandKinds, layout, if_pos large]
    | @unclosed op cases rest layout few =>
      have room : ¬ rest.length / 2 < cases.toNat := by omega
      have hread : readOperands (tableKinds cases.toNat) (cases :: rest) = none := by
        rw [readOperands_eq_none_iff, length_tableKinds, List.length_cons]
        omega
      simp only [decode, Opcode.ofWord?_word, operandKinds, layout, if_neg room, hread]

/-- The code consists of whole instructions, which lie end to end from the position on. -/
structure Spells (position : Nat) (instrs : List Instr) (code : List Word) : Prop where
  encoded : instrs.flatMap Instr.encode = code
  contiguous : Contiguous position instrs (position + code.length)
  whole : ∀ i ∈ instrs, i.Whole

theorem spells_nil_iff {position : Nat} {code : List Word} :
    Spells position [] code ↔ code = [] := by
  constructor
  · intro h
    exact h.encoded.symm
  · rintro rfl
    exact ⟨rfl, rfl, List.forall_mem_nil _⟩

theorem spells_cons_iff {position : Nat} {i : Instr} {is : List Instr} {code : List Word} :
    Spells position (i :: is) code ↔
      i.position = position ∧ i.Whole ∧
        ∃ rest, i.encode ++ rest = code ∧ Spells (position + i.size) is rest := by
  constructor
  · rintro ⟨rfl, ⟨hp, hspan⟩, hwhole⟩
    refine ⟨hp, hwhole i List.mem_cons_self, is.flatMap Instr.encode, rfl, rfl, ?_,
      fun k hk => hwhole k (List.mem_cons_of_mem i hk)⟩
    rw [List.flatMap_cons, List.length_append, Instr.length_encode, ← Nat.add_assoc] at hspan
    rwa [Instr.next, hp] at hspan
  · rintro ⟨hp, hwhole, _, rfl, rfl, hspan, hmore⟩
    refine ⟨rfl, ⟨hp, ?_⟩, List.forall_mem_cons.mpr ⟨hwhole, hmore⟩⟩
    rw [List.length_append, Instr.length_encode, ← Nat.add_assoc, Instr.next, hp]
    exact hspan

/-- The rest of the words after those of the first instruction. -/
theorem cons_drop_of_encode {i : Instr} {w : Word} {rest tail : List Word}
    (h : i.encode ++ tail = w :: rest) : rest.drop i.operands.length = tail := by
  obtain ⟨-, hrest⟩ := List.cons.inj h
  rw [← hrest]
  exact List.drop_left' (List.length_map _)

theorem decodeFrom_eq_ok_iff {position : Nat} {code : List Word} {instrs : List Instr} :
    decodeFrom position code = .ok instrs ↔ Spells position instrs code := by
  fun_induction decodeFrom position code generalizing instrs with
  | case1 position =>
    constructor
    · intro h
      cases h
      exact spells_nil_iff.mpr rfl
    · intro h
      cases instrs with
      | nil => rfl
      | cons i is => exact absurd h.encoded (by simp [Instr.encode])
  | case2 position w rest e failed =>
    constructor
    · intro h
      cases h
    · intro h
      cases instrs with
      | nil => cases spells_nil_iff.mp h
      | cons i is =>
        obtain ⟨hp, hwhole, tail, hcode, -⟩ := spells_cons_iff.mp h
        have hi := decode_eq_ok_iff.mpr ⟨hp, hwhole, tail, hcode⟩
        rw [hi] at failed
        cases failed
  | case3 position w rest i found ih =>
    obtain ⟨hp, hwhole, tail, hcode⟩ := decode_eq_ok_iff.mp found
    rw [cons_drop_of_encode hcode] at ih ⊢
    constructor
    · intro h
      cases hmore : decodeFrom (position + i.size) tail with
      | error e => rw [hmore] at h; cases h
      | ok is =>
        rw [hmore] at h
        cases h
        exact spells_cons_iff.mpr ⟨hp, hwhole, tail, hcode, ih.mp hmore⟩
    · intro h
      cases instrs with
      | nil => cases spells_nil_iff.mp h
      | cons j is =>
        obtain ⟨hjp, hjwhole, more, hjcode, hspells⟩ := spells_cons_iff.mp h
        have hj := decode_eq_ok_iff.mpr ⟨hjp, hjwhole, more, hjcode⟩
        obtain rfl : i = j := by rw [found] at hj; exact Except.ok.inj hj
        obtain rfl : tail = more := List.append_cancel_left (hcode.trans hjcode.symm)
        rw [ih.mpr hspells]
        rfl

/-- From the position on come some instructions and then something that is none. -/
def Stuck (position : Nat) (code : List Word) (e : CodeError) : Prop :=
  ∃ instrs front rest, Spells position instrs front ∧ front ++ rest = code ∧
    Incomplete (position + front.length) rest e

section Stuck

variable {position : Nat} {code : List Word} {e : CodeError}

theorem not_stuck_nil : ¬ Stuck position [] e := by
  rintro ⟨instrs, front, rest, -, hcode, hbad⟩
  rw [(List.append_eq_nil_iff.mp hcode).2] at hbad
  cases hbad

/-- Where no instruction stands the first place is this one. -/
theorem stuck_iff_of_decode_eq_error {e' : CodeError} (failed : decode position code = .error e') :
    Stuck position code e ↔ Incomplete position code e := by
  constructor
  · rintro ⟨instrs, front, rest, hspells, hcode, hbad⟩
    cases instrs with
    | nil =>
      obtain rfl := spells_nil_iff.mp hspells
      obtain rfl : rest = code := hcode
      exact hbad
    | cons i is =>
      obtain ⟨hp, hwhole, more, rfl, -⟩ := spells_cons_iff.mp hspells
      rw [List.append_assoc] at hcode
      have hi := decode_eq_ok_iff.mpr ⟨hp, hwhole, more ++ rest, hcode⟩
      rw [hi] at failed
      cases failed
  · intro hbad
    exact ⟨[], [], code, spells_nil_iff.mpr rfl, rfl, hbad⟩

/-- An instruction is passed by. -/
theorem stuck_append_iff {i : Instr} {tail : List Word}
    (found : decode position (i.encode ++ tail) = .ok i) :
    Stuck position (i.encode ++ tail) e ↔ Stuck (position + i.size) tail e := by
  obtain ⟨hp, hwhole, -⟩ := decode_eq_ok_iff.mp found
  constructor
  · rintro ⟨instrs, front, rest, hspells, hcode, hbad⟩
    cases instrs with
    | nil =>
      obtain rfl := spells_nil_iff.mp hspells
      obtain rfl : rest = i.encode ++ tail := hcode
      have failed : decode position (i.encode ++ tail) = .error e := decode_eq_error_iff.mpr hbad
      rw [failed] at found
      cases found
    | cons j is =>
      obtain ⟨hjp, hjwhole, more, rfl, hmore⟩ := spells_cons_iff.mp hspells
      rw [List.append_assoc] at hcode
      have hj := decode_eq_ok_iff.mpr ⟨hjp, hjwhole, more ++ rest, hcode⟩
      obtain rfl : i = j := by rw [found] at hj; exact Except.ok.inj hj
      rw [List.length_append, Instr.length_encode, ← Nat.add_assoc] at hbad
      exact ⟨is, more, rest, hmore, List.append_cancel_left hcode, hbad⟩
  · rintro ⟨instrs, front, rest, hspells, rfl, hbad⟩
    have hcons := spells_cons_iff.mpr ⟨hp, hwhole, front, rfl, hspells⟩
    refine ⟨i :: instrs, i.encode ++ front, rest, hcons, List.append_assoc .., ?_⟩
    rw [List.length_append, Instr.length_encode, ← Nat.add_assoc]
    exact hbad

theorem decodeFrom_eq_error_iff : decodeFrom position code = .error e ↔ Stuck position code e := by
  fun_induction decodeFrom position code with
  | case1 position => exact iff_of_false (by simp) not_stuck_nil
  | case2 position w rest e' failed =>
    rw [stuck_iff_of_decode_eq_error failed, ← decode_eq_error_iff, failed, Except.error.injEq,
      Except.error.injEq]
  | case3 position w rest i found ih =>
    obtain ⟨-, -, tail, hcode⟩ := decode_eq_ok_iff.mp found
    rw [cons_drop_of_encode hcode] at ih ⊢
    rw [← hcode] at found ⊢
    rw [stuck_append_iff found, ← ih]
    cases decodeFrom (position + i.size) tail <;> simp [Except.map]

end Stuck

theorem decodeAll_eq_ok_iff {code : List Word} {instrs : List Instr} :
    decodeAll code = .ok instrs ↔ Spells 0 instrs code := decodeFrom_eq_ok_iff

/-- An instruction stands at its position in the code. -/
theorem Spells.decodeAt {instrs : List Instr} {code : List Word} (h : Spells 0 instrs code)
    {i : Instr} (hi : i ∈ instrs) : decodeAt code i.position = .ok i := by
  refine decode_eq_ok_iff.mpr ⟨rfl, h.whole i hi, ?_⟩
  have spans : ∀ {first last : Nat} {is : List Instr}, Contiguous first is last →
      first + (is.flatMap Instr.encode).length = last := by
    intro first last is hspan
    induction is generalizing first with
    | nil => exact hspan
    | cons j is ih =>
      rw [List.flatMap_cons, List.length_append, Instr.length_encode, ← Nat.add_assoc]
      have := ih hspan.2
      rwa [Instr.next, hspan.1] at this
  obtain ⟨before, after, rfl⟩ := List.append_of_mem hi
  obtain ⟨middle, hbefore, hp, -⟩ := Contiguous.append_iff.mp h.contiguous
  have hlength : (before.flatMap Instr.encode).length = i.position := by
    have := spans hbefore
    omega
  rw [← h.encoded, List.flatMap_append, List.drop_left' hlength, List.flatMap_cons]
  exact List.prefix_append _ _

/-- The instructions of lines, from the position on. -/
def place (position : Nat) : List (Opcode × List Word) → List Instr
  | [] => []
  | line :: lines =>
    Instr.ofLine position line :: place (position + (1 + line.2.length)) lines

/-- Lines are spelt by their instructions. -/
theorem spells_place {lines : List (Opcode × List Word)} (takes : ∀ l ∈ lines, l.1.Takes l.2)
    (position : Nat) :
    Spells position (place position lines) (spell lines) ∧
      (place position lines).map Instr.line = lines := by
  induction lines generalizing position with
  | nil => exact ⟨spells_nil_iff.mpr rfl, rfl⟩
  | cons line lines ih =>
    obtain ⟨hline, hlines⟩ := List.forall_mem_cons.mp takes
    obtain ⟨hspells, hmore⟩ := ih hlines (position + (1 + line.2.length))
    obtain ⟨hwhole, hsame⟩ := Instr.ofLine_spec hline position
    refine ⟨spells_cons_iff.mpr ⟨rfl, hwhole, spell lines, ?_, ?_⟩, ?_⟩
    · rw [Instr.encode_ofLine hline]
      rfl
    · rwa [Instr.size_ofLine hline]
    · rw [place, List.map_cons, hsame, hmore]

theorem Spells.spell_lines {position : Nat} {instrs : List Instr} {code : List Word}
    (h : Spells position instrs code) :
    (∀ l ∈ instrs.map Instr.line, l.1.Takes l.2) ∧ spell (instrs.map Instr.line) = code := by
  constructor
  · intro l hl
    obtain ⟨i, hi, rfl⟩ := List.mem_map.mp hl
    exact (h.whole i hi).takes
  · rw [← h.encoded, spell, List.flatMap_map]
    rfl

/-- After some whole instructions comes something that no whole instruction begins with. -/
def Undecodable (code : List Word) (e : CodeError) : Prop :=
  ∃ lines rest, (∀ l ∈ lines, l.1.Takes l.2) ∧ spell lines ++ rest = code ∧
    Incomplete (spell lines).length rest e

theorem decodeAll_eq_error_iff {code : List Word} {e : CodeError} :
    decodeAll code = .error e ↔ Undecodable code e := by
  constructor
  · intro h
    obtain ⟨instrs, front, rest, hspells, hcode, hbad⟩ := decodeFrom_eq_error_iff.mp h
    obtain ⟨takes, spelt⟩ := hspells.spell_lines
    refine ⟨_, rest, takes, by rw [spelt, hcode], ?_⟩
    rw [spelt]
    rwa [Nat.zero_add] at hbad
  · rintro ⟨lines, rest, takes, hcode, hbad⟩
    refine decodeFrom_eq_error_iff.mpr ⟨_, _, rest, (spells_place takes 0).1, hcode, ?_⟩
    rwa [Nat.zero_add]

/-- The decoder accepts just the concatenations of whole instructions and finds what was written; of any
other code it reports the first place where no whole instruction stands. -/
theorem decodeAll_exact (code : List Word) :
    ((∃ instrs, decodeAll code = .ok instrs) ↔
      ∃ lines, (∀ l ∈ lines, l.1.Takes l.2) ∧ spell lines = code) ∧
    (∀ instrs, decodeAll code = .ok instrs →
      instrs.flatMap Instr.encode = code ∧ Contiguous 0 instrs code.length ∧
        ∀ i ∈ instrs,
          i.operands.map Operand.kind = i.opcode.kinds (i.operands.map Operand.word) ∧
            Code.decodeAt code i.position = .ok i) ∧
    (∀ lines, (∀ l ∈ lines, l.1.Takes l.2) → spell lines = code →
      ∃ instrs, decodeAll code = .ok instrs ∧ instrs.map Instr.line = lines) ∧
    (∀ e, decodeAll code = .error e ↔ Undecodable code e) := by
  have written (lines : List (Opcode × List Word)) (takes : ∀ l ∈ lines, l.1.Takes l.2)
      (spelt : spell lines = code) :
      ∃ instrs, decodeAll code = .ok instrs ∧ instrs.map Instr.line = lines := by
    obtain ⟨hspells, hlines⟩ := spells_place takes 0
    exact ⟨place 0 lines, decodeAll_eq_ok_iff.mpr (spelt ▸ hspells), hlines⟩
  refine ⟨⟨?_, ?_⟩, ?_, written, fun e => decodeAll_eq_error_iff⟩
  · rintro ⟨instrs, h⟩
    exact ⟨_, (decodeAll_eq_ok_iff.mp h).spell_lines⟩
  · rintro ⟨lines, takes, spelt⟩
    obtain ⟨instrs, h, -⟩ := written lines takes spelt
    exact ⟨instrs, h⟩
  · intro instrs h
    have hspells := decodeAll_eq_ok_iff.mp h
    have hspan := hspells.contiguous
    rw [Nat.zero_add] at hspan
    exact ⟨hspells.encoded, hspan, fun i hi => ⟨hspells.whole i hi, hspells.decodeAt hi⟩⟩

end Code

end StackFlow
