import Mathlib
import StackFlow.Proofs.Assembly.Patching

/-!
The assembler and the decoder agree. Code is finished unless it refers to a label that is not marked,
and then every line but the marks has become one instruction, with every jump, branch and dispatch
leading to where its labels were last marked.
-/
namespace StackFlow

open Assembly (ofDirectives)

/-- The label was last marked when the code had come to the position. -/
def LastMarked (ds : List Directive) (label : Label) (position : Nat) : Prop :=
  ∃ before after, ds = before ++ .mark label :: after ∧ .mark label ∉ after ∧
    (ofDirectives before).position = position

theorem ofDirectives_concat (ds : List Directive) (d : Directive) :
    ofDirectives (ds ++ [d]) = (ofDirectives ds).add d := List.foldl_concat ..

theorem ofDirectives_append (ds es : List Directive) :
    ofDirectives (ds ++ es) = es.foldl Assembly.add (ofDirectives ds) := List.foldl_append

theorem labels_ofDirectives (ds : List Directive) :
    (ofDirectives ds).unresolved.map Unresolved.label = ds.flatMap Directive.labels :=
  Assembly.labels_foldl ds

theorem lastMarked_concat_iff {ds : List Directive} {d : Directive} {label : Label} {p : Nat} :
    LastMarked (ds ++ [d]) label p ↔
      d = .mark label ∧ (ofDirectives ds).position = p ∨
        d ≠ .mark label ∧ LastMarked ds label p := by
  constructor
  · rintro ⟨before, after, hsplit, hafter, hp⟩
    rcases List.eq_nil_or_concat after with rfl | ⟨after, e, rfl⟩
    · obtain ⟨rfl, hd⟩ := List.append_inj' hsplit rfl
      exact .inl ⟨List.singleton_inj.mp hd, hp⟩
    · rw [List.concat_eq_append, ← List.cons_append, ← List.append_assoc] at hsplit
      obtain ⟨rfl, hd⟩ := List.append_inj' hsplit rfl
      obtain rfl := List.singleton_inj.mp hd
      rw [List.concat_eq_append, List.mem_append, not_or, List.mem_singleton] at hafter
      exact .inr ⟨fun h => hafter.2 h.symm, before, after, rfl, hafter.1, hp⟩
  · rintro (⟨rfl, hp⟩ | ⟨hd, before, after, rfl, hafter, hp⟩)
    · exact ⟨ds, [], rfl, List.not_mem_nil, hp⟩
    · refine ⟨before, after ++ [d], by simp, ?_, hp⟩
      rw [List.mem_append, not_or, List.mem_singleton]
      exact ⟨hafter, fun h => hd h.symm⟩

/-- A look-up of a label finds where it was last marked. -/
theorem lookup_marks_eq_some_iff {ds : List Directive} {label : Label} {p : Nat} :
    (ofDirectives ds).marks.lookup label = some p ↔ LastMarked ds label p := by
  induction ds using List.reverseRecOn with
  | nil =>
    refine ⟨nofun, ?_⟩
    rintro ⟨before, after, hsplit, -⟩
    cases before <;> cases hsplit
  | append_singleton ds d ih =>
    rw [ofDirectives_concat, lastMarked_concat_iff, ← ih]
    by_cases hd : ∃ other, d = .mark other
    · obtain ⟨other, rfl⟩ := hd
      rw [Assembly.marks_mark, List.lookup_cons]
      by_cases hl : label = other
      · simp [hl]
      · have hne : (label == other) = false := by simpa using hl
        simp [hne, Ne.symm hl]
    · have other : ∀ l, d ≠ .mark l := fun l h => hd ⟨l, h⟩
      rw [Assembly.marks_add other]
      simp [other label]

theorem exists_lastMarked_iff {ds : List Directive} {label : Label} :
    (∃ p, LastMarked ds label p) ↔ .mark label ∈ ds := by
  constructor
  · rintro ⟨p, before, after, rfl, -⟩
    simp
  · intro h
    induction ds using List.reverseRecOn with
    | nil => cases h
    | append_singleton ds d ih =>
      by_cases hd : d = .mark label
      · exact ⟨_, lastMarked_concat_iff.mpr (.inl ⟨hd, rfl⟩)⟩
      · have earlier : .mark label ∈ ds := by simpa [Ne.symm hd] using h
        obtain ⟨p, hp⟩ := ih earlier
        exact ⟨p, lastMarked_concat_iff.mpr (.inr ⟨hd, hp⟩)⟩

theorem marked_iff {ds : List Directive} {label : Label} :
    (ofDirectives ds).marked label ↔ .mark label ∈ ds := by
  rw [Assembly.marked, Option.isSome_iff_exists, ← exists_lastMarked_iff]
  exact exists_congr fun _ => lookup_marks_eq_some_iff

namespace Assembly

theorem position_le_foldl (a : Assembly) (ds : List Directive) :
    a.position ≤ (ds.foldl add a).position := by
  induction ds generalizing a with
  | nil => exact Nat.le_refl _
  | cons d ds ih =>
    have hadd : a.position ≤ (a.add d).position := by
      rw [position, position, add_code, List.length_append]
      exact Nat.le_add_right _ _
    exact hadd.trans (ih _)

/-- Code whose positions are signed words has signed words for their distances. -/
theorem toInt_offset {p base : Nat} (hp : p < 2 ^ 63) (hbase : base < 2 ^ 63) :
    (offset p base).toInt64.toInt = p - base := by
  rw [offset, Int64.toInt64_toUInt64, Int64.toInt_sub, Int64.toInt_ofNat_of_lt hp,
    Int64.toInt_ofNat_of_lt hbase]
  apply Int.bmod_eq_of_le <;> omega

end Assembly

theorem position_le_append (ds es : List Directive) :
    (ofDirectives ds).position ≤ (ofDirectives (ds ++ es)).position := by
  rw [ofDirectives_append]
  exact Assembly.position_le_foldl _ es

theorem LastMarked.le_position {ds : List Directive} {label : Label} {p : Nat}
    (h : LastMarked ds label p) : p ≤ (ofDirectives ds).position := by
  obtain ⟨before, after, rfl, -, rfl⟩ := h
  exact position_le_append before _

namespace Directive

/-- The opcode of a raw line has as many slots as there are operand words, and one that goes to a label
is a jump or a branch. -/
def Proper : Directive → Prop
  | .emit op operands => ∃ kinds, op.layout = some kinds ∧ operands.length = kinds.length
  | .jump op _ => op.control = some .jump ∨ ∃ kind, op.control = some (.branch kind)
  | _ => True

/-- The line becomes an instruction; only marks do not. -/
def emits : Directive → Bool
  | .mark _ => false
  | _ => true

/-- What becomes of a line: the instruction that it names, with its operands, whose offsets lead to
where the labels were marked. -/
inductive Becomes (marked : Label → Nat → Prop) : Directive → Instr → Prop
  | emit {i : Instr} {op : Opcode} {operands : List Word} (line : i.line = (op, operands)) :
      Becomes marked (.emit op operands) i
  | zero {i : Instr} (line : i.line = (.putZero, [])) :
      Becomes marked (.putObject (.fixnum 0)) i
  | one {i : Instr} (line : i.line = (.putOne, [])) :
      Becomes marked (.putObject (.fixnum 1)) i
  | object {i : Instr} {v : Value} (not_zero : v ≠ .fixnum 0) (not_one : v ≠ .fixnum 1)
      (line : i.line = (.putObject, [v.bits])) : Becomes marked (.putObject v) i
  | newArray {i : Instr} {count : Word} (line : i.line = (.newArray, [count])) :
      Becomes marked (.newArray count) i
  | send {i : Instr} {selector count : Word} (line : i.line = (.send, [selector, count])) :
      Becomes marked (.send selector count) i
  | jump {i : Instr} {op : Opcode} {label : Label} {dest : Nat} (opcode : i.opcode = op)
      (mark : marked label dest) (leads : i.jumpTarget? = some dest) :
      Becomes marked (.jump op label) i
  | dispatch {i : Instr} {cases : List (Value × Label)} {other : Label} {table : List (Value × Nat)}
      {rest : Nat} (marks : List.Forall₂ (fun c t => c.1 = t.1 ∧ marked c.2 t.2) cases table)
      (otherMark : marked other rest) (leads : i.dispatchTable? = some (table, rest)) :
      Becomes marked (.dispatch cases other) i

theorem length_tableLine (cases : List (Value × Word)) (other : Word) :
    (tableLine cases other).2.length = 2 * cases.length + 2 := by
  have hpairs := length_flatMap_pair (fun c : Value × Word => c.1.bits) Prod.snd cases
  rw [tableLine, List.length_cons, List.length_append, hpairs, List.length_singleton]

/-- The number of cases of a table that fits is a word. -/
theorem toNat_ofNat_length {α : Type} (cases : List α) (fits : 2 * cases.length < 2 ^ 63) :
    (UInt64.ofNat cases.length).toNat = cases.length := by
  apply UInt64.toNat_ofNat_of_lt
  rw [UInt64.size]
  omega

/-- Lines have as many operands as their opcodes prescribe. -/
theorem takes_of_line? {offset : Label → Nat → Word} {d : Directive} {position : Nat}
    {line : Opcode × List Word} (proper : d.Proper) (found : d.line? offset position = some line)
    (fits : line.2.length < 2 ^ 63) : line.1.Takes line.2 := by
  cases d with
  | emit op operands =>
    obtain ⟨kinds, layout, count⟩ := proper
    cases found
    exact .fixed layout count
  | putObject v =>
    simp only [line?] at found
    split at found
    · cases found
      exact .fixed rfl rfl
    · split at found <;> cases found <;> exact .fixed rfl rfl
  | newArray count =>
    cases found
    exact .fixed rfl rfl
  | send selector count =>
    cases found
    exact .fixed rfl rfl
  | jump op label =>
    cases found
    exact .fixed (Opcode.layout_of_offset proper) rfl
  | dispatch cases other =>
    cases found
    let words := cases.map fun c => (c.1, offset c.2 (position + 2 * cases.length + 3))
    have hentries := length_flatMap_pair (fun c : Value × Word => c.1.bits) Prod.snd words
    have hfits : 2 * words.length + 2 < 2 ^ 63 := by
      rw [length_tableLine] at fits
      exact fits
    have hcount := toNat_ofNat_length words (by omega)
    refine .table rfl ?_
    rw [List.length_append, hentries, hcount]
    rfl
  | mark label => cases found

end Directive

namespace Instr

variable {dest : Label → Nat}

/-- The only offset of a jump leads where it is counted to. -/
theorem jumpTarget?_ofLine {op : Opcode} {position : Nat} {w : Word} {p : Nat}
    (layout : op.layout = some [.offset])
    (leads : (ofLine position (op, [w])).target w = p) :
    (ofLine position (op, [w])).jumpTarget? = some p := by
  have hkinds := Opcode.kinds_of_layout layout [w]
  have htargets : (ofLine position (op, [w])).targets = [(p : Int)] := by
    rw [targets, ← leads, ofLine, hkinds]
    rfl
  rw [jumpTarget?, htargets]
  simp [position?]

/-- The cases of a table are read with where their offsets lead. -/
theorem entries?_pairs (i : Instr) (word : Label → Word) {cases : List (Value × Label)}
    {other : Label} (leads : ∀ l ∈ cases.map Prod.snd ++ [other], i.target (word l) = dest l) :
    i.entries? (List.zipWith Operand.ofWord
        ((List.replicate cases.length [OperandKind.value, .offset]).flatten ++ [.offset])
        (cases.flatMap (fun c => [c.1.bits, word c.2]) ++ [word other])) =
      some (cases.map fun c => (c.1, dest c.2), dest other) := by
  have hposition (p : Nat) : position? p = some p := by simp [position?]
  induction cases with
  | nil =>
    have hother := leads other (by simp)
    simp [entries?, Operand.ofWord, hother, hposition]
  | cons c cases ih =>
    obtain ⟨hc, hmore⟩ := List.forall_mem_cons.mp leads
    simp [List.replicate_succ, entries?, Operand.ofWord, hc, hposition, ih hmore]

/-- A dispatch has the cases of its line, with where their offsets lead. -/
theorem dispatchTable?_ofLine {i : Instr} {position : Nat} (word : Label → Word)
    {cases : List (Value × Label)} {other : Label}
    (line : i = ofLine position (Directive.tableLine (cases.map fun c => (c.1, word c.2))
      (word other)))
    (count : (UInt64.ofNat cases.length).toNat = cases.length)
    (leads : ∀ l ∈ cases.map Prod.snd ++ [other], i.target (word l) = dest l) :
    i.dispatchTable? = some (cases.map fun c => (c.1, dest c.2), dest other) := by
  have hopcode : i.opcode = .caseDispatch := by
    rw [line]
    rfl
  have htail : i.operands.tail = List.zipWith Operand.ofWord
      ((List.replicate cases.length [OperandKind.value, .offset]).flatten ++ [.offset])
      (cases.flatMap (fun c => [c.1.bits, word c.2]) ++ [word other]) := by
    simp [line, ofLine, Directive.tableLine, Opcode.kinds, Opcode.layout, count, Code.tableKinds,
      List.flatMap_map]
  rw [dispatchTable?, if_pos hopcode, htail]
  exact i.entries?_pairs word leads

/-- An offset that is counted from the end of the instruction leads to where it is counted to. -/
theorem target_offset {i : Instr} {p base : Nat} (hbase : i.next = base) (hp : p < 2 ^ 63)
    (fits : base < 2 ^ 63) : i.target (Assembly.offset p base) = p := by
  rw [target, hbase, Assembly.toInt_offset hp fits]
  omega

end Instr

namespace Directive

/-- Each line becomes what it stands for. -/
theorem becomes_of_line? {marked : Label → Nat → Prop} {dest : Label → Nat} {d : Directive}
    {position : Nat} {line : Opcode × List Word} (proper : d.Proper)
    (found : d.line? (Assembly.offsetTo dest) position = some line)
    (fits : position + (1 + line.2.length) < 2 ^ 63)
    (resolves : ∀ l ∈ d.labels, marked l (dest l) ∧ dest l < 2 ^ 63) :
    Becomes marked d (Instr.ofLine position line) := by
  have takes := takes_of_line? proper found (by omega)
  have hline := (Instr.ofLine_spec takes position).2
  have hnext : (Instr.ofLine position line).next = position + (1 + line.2.length) :=
    congrArg (position + ·) (Instr.size_ofLine takes position)
  cases d with
  | emit op operands =>
    cases found
    exact .emit hline
  | putObject v =>
    simp only [line?] at found
    split at found
    next zero =>
      cases found
      subst zero
      exact .zero hline
    next not_zero =>
      split at found
      next one =>
        cases found
        subst one
        exact .one hline
      next not_one =>
        cases found
        exact .object not_zero not_one hline
  | newArray count =>
    cases found
    exact .newArray hline
  | send selector count =>
    cases found
    exact .send hline
  | jump op label =>
    cases found
    obtain ⟨mark, hdest⟩ := resolves label (by simp [labels])
    have leads := Instr.target_offset hnext hdest fits
    exact .jump rfl mark (Instr.jumpTarget?_ofLine (Opcode.layout_of_offset proper) leads)
  | dispatch cases other =>
    cases found
    let base := position + 2 * cases.length + 3
    let word : Label → Word := fun l => Assembly.offset (dest l) base
    have hbase : position + (1 + (2 * cases.length + 2)) = base := by
      dsimp only [base]
      omega
    rw [length_tableLine, List.length_map, hbase] at fits hnext
    have leads : ∀ l ∈ cases.map Prod.snd ++ [other],
        (Instr.ofLine position (tableLine (cases.map fun c => (c.1, word c.2)) (word other))).target
          (word l) = dest l := fun l hl => Instr.target_offset hnext (resolves l hl).2 fits
    have hcount := toNat_ofNat_length cases (by omega)
    have table := Instr.dispatchTable?_ofLine word rfl hcount leads
    refine .dispatch ?_ (resolves other (by simp [labels])).1 table
    rw [List.forall₂_map_right_iff, List.forall₂_same]
    intro c hc
    have hlabel : c.2 ∈ cases.map Prod.snd ++ [other] :=
      List.mem_append_left _ (List.mem_map_of_mem hc)
    exact ⟨rfl, (resolves c.2 hlabel).1⟩
  | mark label => cases found

/-- A line has words just if it becomes an instruction. -/
theorem line?_eq_none_iff (offset : Label → Nat → Word) (d : Directive) (position : Nat) :
    d.line? offset position = none ↔ d.emits = false := by
  cases d with
  | putObject v =>
    simp only [line?, emits]
    split
    · simp
    · split <;> simp
  | _ => simp [line?, emits]

end Directive

namespace Assembly

/-- The lines of the code become its instructions, in order and each where it was added. -/
theorem forall₂_place_lines {marked : Label → Nat → Prop} {dest : Label → Nat} {a : Assembly}
    {ds : List Directive} (placed : a.Placed) (proper : ∀ d ∈ ds, d.Proper)
    (fits : (ds.foldl add a).position < 2 ^ 63)
    (resolves : ∀ l ∈ ds.flatMap Directive.labels, marked l (dest l) ∧ dest l < 2 ^ 63) :
    (∀ l ∈ a.lines (offsetTo dest) ds, l.1.Takes l.2) ∧
      List.Forall₂ (fun c i => i.position = c.1 ∧ Directive.Becomes marked c.2 i)
        ((a.added ds).filter fun c => c.2.emits)
        (Code.place a.position (a.lines (offsetTo dest) ds)) := by
  induction ds generalizing a with
  | nil => exact ⟨List.forall_mem_nil _, .nil⟩
  | cons d ds ih =>
    let word := offsetTo dest
    obtain ⟨hd, hds⟩ := List.forall_mem_cons.mp proper
    rw [List.flatMap_cons, List.forall_mem_append] at resolves
    obtain ⟨hlabels, hmore⟩ := resolves
    -- the code grows by the words of the line, whatever the offsets in them will be
    have placed' := (filled_add word placed d).1
    have hposition := position_add word placed d
    obtain ⟨takes, become⟩ := ih placed' hds fits hmore
    rw [lines_cons, added]
    cases found : d.line? word a.position with
    | none =>
      have hmark := (d.line?_eq_none_iff word a.position).mp found
      have hsame : (a.add d).position = a.position := by
        rw [hposition, Directive.words, found]
        rfl
      rw [hsame] at become
      rw [List.filter_cons_of_neg (by simp [hmark])]
      exact ⟨takes, become⟩
    | some line =>
      have hemits : d.emits = true := by
        rw [← Bool.not_eq_false, ← d.line?_eq_none_iff word a.position, found]
        exact Option.some_ne_none line
      have hsize : (a.add d).position = a.position + (1 + line.2.length) := by
        rw [hposition, Directive.words, found]
        simp [Code.spell, Nat.add_comm]
      have hend : (a.add d).position ≤ ((d :: ds).foldl add a).position :=
        position_le_foldl (a.add d) ds
      have htakes := Directive.takes_of_line? hd found (by omega)
      have hbecomes := Directive.becomes_of_line? hd found (by omega) hlabels
      rw [hsize] at become
      rw [List.filter_cons_of_pos (by simp [hemits])]
      exact ⟨List.forall_mem_cons.mpr ⟨htakes, takes⟩, .cons ⟨rfl, hbecomes⟩ become⟩

end Assembly

/-- The instructions are those of the lines: each line but the marks became one instruction, in order,
at the position that the code had when the line was added. -/
def Assembles (ds : List Directive) (instrs : List Instr) : Prop :=
  List.Forall₂ (fun c i => i.position = c.1 ∧ Directive.Becomes (LastMarked ds) c.2 i)
    ((({} : Assembly).added ds).filter fun c => c.2.emits) instrs

namespace Assembly

variable {ds : List Directive}

theorem lastMarked_dest {label : Label} (h : .mark label ∈ ds) :
    LastMarked ds label ((ofDirectives ds).dest label) := by
  obtain ⟨p, hp⟩ := Option.isSome_iff_exists.mp (marked_iff.mpr h)
  have hdest : (ofDirectives ds).dest label = p := by rw [dest, hp, Option.getD_some]
  rw [hdest]
  exact lookup_marks_eq_some_iff.mp hp

theorem words_of_marks (marked : ∀ l ∈ ds.flatMap Directive.labels, .mark l ∈ ds) :
    (ofDirectives ds).words = .ok ((ofDirectives ds).filled (offsetTo (ofDirectives ds).dest)) := by
  apply words_of_marked
  rw [labels_ofDirectives]
  exact fun l hl => marked_iff.mpr (marked l hl)

/-- With all its labels marked, code is finished and holds what the lines say. -/
theorem words_assembles (proper : ∀ d ∈ ds, d.Proper) (fits : (ofDirectives ds).position < 2 ^ 63)
    (marked : ∀ l ∈ ds.flatMap Directive.labels, .mark l ∈ ds) :
    ∃ code instrs, (ofDirectives ds).words = .ok code ∧ Code.decodeAll code = .ok instrs ∧
      Assembles ds instrs := by
  let a := ofDirectives ds
  have placed : ({} : Assembly).Placed := List.forall_mem_nil _
  have spelt : a.filled (offsetTo a.dest) = Code.spell (({} : Assembly).lines (offsetTo a.dest) ds) :=
    filled_foldl (offsetTo a.dest) placed ds
  have resolves : ∀ l ∈ ds.flatMap Directive.labels,
      LastMarked ds l (a.dest l) ∧ a.dest l < 2 ^ 63 := by
    intro l hl
    have hlast := lastMarked_dest (marked l hl)
    exact ⟨hlast, Nat.lt_of_le_of_lt hlast.le_position fits⟩
  obtain ⟨takes, become⟩ := forall₂_place_lines placed proper fits resolves
  have decoded := Code.decodeAll_eq_ok_iff.mpr (Code.spells_place takes 0).1
  rw [← spelt] at decoded
  exact ⟨_, _, words_of_marks marked, decoded, become⟩

/-- A label without a mark is found. -/
theorem words_unmarked {label : Label}
    (first : FirstBad (fun l => .mark l ∈ ds) (ds.flatMap Directive.labels) label) :
    (ofDirectives ds).words = .error (.unmarkedLabel label) := by
  apply words_of_firstBad
  rw [labels_ofDirectives]
  simpa only [marked_iff] using first

variable {name : String} {params locals : Nat} {stackMax? : Option Nat}

theorem build_of_words {code : List Word} (finished : (ofDirectives ds).words = .ok code) :
    (ofDirectives ds).build name params locals stackMax? =
      (Method.ofCode name code (stackMax?.getD (ofDirectives ds).maxDepth) params locals).mapError
        .code := by
  rw [build, finished]
  dsimp only
  cases Method.ofCode name code (stackMax?.getD (ofDirectives ds).maxDepth) params locals <;> rfl

theorem build_of_unmarked {label : Label}
    (first : FirstBad (fun l => .mark l ∈ ds) (ds.flatMap Directive.labels) label) :
    (ofDirectives ds).build name params locals stackMax? = .error (.unmarkedLabel label) := by
  rw [build, words_unmarked first]

theorem mapError_eq_ok_iff {α β γ : Type} {r : Except α γ} {f : α → β} {x : γ} :
    r.mapError f = .ok x ↔ r = .ok x := by
  cases r <;> simp [Except.mapError]

theorem ofCode_mapError_ne_unmarked {code : List Word} {stackMax : Nat} {label : Label} :
    (Method.ofCode name code stackMax params locals).mapError AssemblyError.code ≠
      .error (.unmarkedLabel label) := by
  cases Method.ofCode name code stackMax params locals <;> simp [Except.mapError]

/-- Assembly fails at the first label that is referred to but not marked. Otherwise the code is taken or
refused like any other, and what the decoder finds in it are the lines that were written, each at the
position where it was added and with every label where it was last marked. A memory whose addresses are
words holds no code of 2^63 words. -/
theorem build_exact (name : String) (params locals : Nat) (stackMax? : Option Nat)
    (ds : List Directive) (proper : ∀ d ∈ ds, d.Proper)
    (fits : (ofDirectives ds).position < 2 ^ 63) :
    (∀ label, (ofDirectives ds).build name params locals stackMax? =
        .error (.unmarkedLabel label) ↔
      FirstBad (fun l => .mark l ∈ ds) (ds.flatMap Directive.labels) label) ∧
    ((∀ l ∈ ds.flatMap Directive.labels, .mark l ∈ ds) →
      ∃ code instrs, Code.decodeAll code = .ok instrs ∧ Assembles ds instrs ∧
        (ofDirectives ds).build name params locals stackMax? =
          (Method.ofCode name code (stackMax?.getD (ofDirectives ds).maxDepth) params
            locals).mapError .code) ∧
    (∀ m, (ofDirectives ds).build name params locals stackMax? = .ok m →
      Assembles ds m.instrs) := by
  rcases forall_or_firstBad (fun l => .mark l ∈ ds) (ds.flatMap Directive.labels) with
    marked | ⟨other, first⟩
  · obtain ⟨code, instrs, finished, decoded, assembles⟩ := words_assembles proper fits marked
    refine ⟨fun label => ⟨fun failed => ?_, build_of_unmarked⟩,
      fun _ => ⟨code, instrs, decoded, assembles, build_of_words finished⟩, fun m accepted => ?_⟩
    · rw [build_of_words finished] at failed
      exact absurd failed ofCode_mapError_ne_unmarked
    · rw [build_of_words finished, mapError_eq_ok_iff, Method.ofCode_eq_ok_iff] at accepted
      have hinstrs := m.decodeAll_code
      rw [accepted.2.1, decoded] at hinstrs
      cases hinstrs
      exact assembles
  · refine ⟨fun label => ⟨fun failed => ?_, build_of_unmarked⟩,
      fun marked => absurd (marked other first.mem) first.not_good, fun m accepted => ?_⟩
    · rw [build_of_unmarked first] at failed
      cases failed
      exact first
    · rw [build_of_unmarked first] at accepted
      cases accepted

/-- A loop in which `B` is marked twice, so that its second mark counts: `L: getlocal 0;
opt_case_dispatch {1: A, 2: L} B; B: A: putobject 0; branchif C; jump L; B: C: putnil; leave`. -/
def winding : List Directive :=
  [.mark 0, .emit .getLocal [0], .dispatch [(.fixnum 1, 1), (.fixnum 2, 0)] 2, .mark 2, .mark 1,
    .putObject (.fixnum 0), .jump .branchIf 3, .jump .jump 0, .mark 2, .mark 3, .emit .putNil [],
    .emit .leave []]

def wound : Method where
  name := "winding"
  code := [12, 0, 29, 2, 3, 0, 5, 18446744073709551607, 5, 5, 26, 2, 25, 18446744073709551602, 2, 23]
  stackMax := 1
  params := 1
  locals := 1
  instrs := [⟨0, .getLocal, [.literal 0]⟩,
    ⟨2, .caseDispatch, [.literal 2, .value ⟨3⟩, .offset 0, .value ⟨5⟩,
      .offset 18446744073709551607, .offset 5]⟩,
    ⟨9, .putZero, []⟩, ⟨10, .branchIf, [.offset 2]⟩, ⟨12, .jump, [.offset 18446744073709551602]⟩,
    ⟨14, .putNil, []⟩, ⟨15, .leave, []⟩]
  verified := by cbv

theorem winding_assembles : (ofDirectives winding).build "winding" 1 1 none = .ok wound ∧
    Assembles winding wound.instrs := by
  have proper : ∀ d ∈ winding, d.Proper := by
    simp [winding, Directive.Proper, Opcode.layout, Opcode.control]
  have finished : (ofDirectives winding).words = .ok wound.code := by rfl
  have built : (ofDirectives winding).build "winding" 1 1 none = .ok wound := by
    rw [build_of_words finished, mapError_eq_ok_iff]
    exact Method.ofCode_eq_ok_iff.mpr ⟨rfl, rfl, rfl, rfl, rfl⟩
  exact ⟨built, (build_exact "winding" 1 1 none winding proper (by decide)).2.2 wound built⟩

end Assembly

end StackFlow
