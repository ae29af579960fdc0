import StackFlow.Proofs.Assembly.Assembled
import StackFlow.Proofs.Walk.Relocation

/-!
Opcodes of special cases. What they say can be said in general terms: an operator is a method that is
sent, and the integers 0 and 1 are objects like others. The general instructions are longer, so that all
that comes after them lies at other positions. Main statement: code is assembled and compiled to the
same function, whichever way it is written (`compile_generalised`).
-/
namespace StackFlow

open Assembly (ofDirectives)

namespace Directive

/-- The only offsets of the line are those to labels. -/
def Movable : Directive → Prop
  | .emit op operands =>
    ∃ kinds, op.layout = some kinds ∧ .offset ∉ kinds ∧ operands.length = kinds.length
  | d => d.Proper

/-- The second line is the first one, or says in general terms what the first one has an opcode for. -/
inductive Generalises : Directive → Directive → Prop
  | same (d : Directive) : Generalises d d
  | operator {op : Opcode} {selector : Word} (sends : op.selector? = some selector) :
      Generalises (.emit op []) (.send selector 1)
  | integer {v : Value} (small : v = .fixnum 0 ∨ v = .fixnum 1) :
      Generalises (.putObject v) (.emit .putObject [v.bits])

theorem Movable.proper {d : Directive} (h : d.Movable) : d.Proper := by
  cases d with
  | emit op operands =>
    obtain ⟨kinds, layout, -, count⟩ := h
    exact ⟨kinds, layout, count⟩
  | _ => exact h

/-- Values that the line takes from the stack and puts on it, along the text. -/
def effect? : Directive → Option (Nat × Nat)
  | .emit op _ => op.effect
  | .putObject _ => some (0, 1)
  | .newArray count => some (count.toNat, 1)
  | .send _ count => some ((count + 1).toNat, 1)
  | .jump op _ => op.effect
  | .dispatch _ _ => some (1, 0)
  | .mark _ => none

/-- Number of words of the line. -/
def size (d : Directive) : Nat := (d.words (fun _ _ => 0) 0).length

theorem length_words (d : Directive) (offset : Label → Nat → Word) (position : Nat) :
    (d.words offset position).length = d.size := by
  unfold size
  cases d with
  | putObject v => rfl
  | dispatch cases other =>
    simp only [Assembly.words_dispatch, List.length_cons, List.length_append, length_flatMap_pair,
      List.length_nil]
  | _ => rfl

namespace Generalises

variable {d d' : Directive} (h : d.Generalises d')

include h

theorem movable (hd : d.Movable) : d'.Movable := by
  cases h with
  | same => exact hd
  | operator => exact trivial
  | integer => exact ⟨[.value], rfl, by decide, rfl⟩

theorem labels_eq : d'.labels = d.labels := by
  cases h <;> rfl

theorem emits_eq : d'.emits = d.emits := by
  cases h <;> rfl

theorem mark_iff (label : Label) : d' = .mark label ↔ d = .mark label := by
  cases h <;> simp

theorem effect?_eq : d'.effect? = d.effect? := by
  cases h with
  | same => rfl
  | @operator op selector sends => cases op <;> cases sends <;> rfl
  | integer => rfl

/-- The general line is no shorter, and is empty only where the other one is. -/
theorem size_le : d.size ≤ d'.size ∧ (d.size = 0 → d'.size = 0) := by
  cases h with
  | same => exact ⟨Nat.le_refl _, id⟩
  | operator => exact ⟨Nat.le_add_left 1 2, nofun⟩
  | @integer v small =>
    rcases small with rfl | rfl
    · exact ⟨by decide, by decide⟩
    · exact ⟨by decide, by decide⟩

end Generalises

end Directive

namespace Assembly

variable {a a' : Assembly} {ds ds' : List Directive}

/-- Depth of the operand stack along the text, and the greatest so far. -/
def heights (a : Assembly) : Nat × Nat := (a.depth, a.maxDepth)

def heightsAfter (h : Nat × Nat) : Option (Nat × Nat) → Nat × Nat
  | some (pops, pushes) => (h.1 - pops + pushes, max h.2 (h.1 - pops + pushes))
  | none => h

theorem heights_trackOpcode (op : Opcode) :
    (a.trackOpcode op).heights = heightsAfter a.heights op.effect := by
  unfold trackOpcode
  cases op.effect <;> rfl

theorem heights_add (d : Directive) : (a.add d).heights = heightsAfter a.heights d.effect? := by
  cases d with
  | emit op operands => exact heights_trackOpcode op
  | putObject v =>
    simp only [add, putObject]
    split
    · rfl
    · split <;> rfl
  | jump op label => exact heights_trackOpcode op
  | dispatch cases other => rw [add, dispatch_eq]; rfl
  | _ => rfl

/-- Lines with the same effects lead to the same estimate. -/
theorem heights_foldl (a a' : Assembly)
    (h : List.Forall₂ (fun d d' => d'.effect? = d.effect?) ds ds')
    (start : a'.heights = a.heights) : (ds'.foldl add a').heights = (ds.foldl add a).heights := by
  induction h generalizing a a' with
  | nil => exact start
  | cons first _ ih => exact ih _ _ (by rw [heights_add, heights_add, first, start])

theorem position_add_size (d : Directive) : (a.add d).position = a.position + d.size := by
  rw [position, add_code, List.length_append, Directive.length_words]
  rfl

/-- Where the lines of the one text lie in the other one. -/
theorem exists_place (a a' : Assembly) (h : List.Forall₂ Directive.Generalises ds ds')
    (le : a.position ≤ a'.position) :
    ∃ φ : Nat → Nat, StrictMono φ ∧ φ a.position = a'.position ∧
      φ (ds.foldl add a).position = (ds'.foldl add a').position ∧
      List.Forall₂ (fun c c' => a.position ≤ c.1 ∧ c'.1 = φ c.1 ∧ c.2.Generalises c'.2)
        (a.added ds) (a'.added ds') := by
  induction h generalizing a a' with
  | nil =>
    refine ⟨fun p => p + (a'.position - a.position), fun p q hpq => ?_, ?_, ?_, .nil⟩
    · dsimp only
      omega
    · dsimp only
      omega
    · dsimp only [List.foldl_nil]
      omega
  | @cons d d' ds ds' first _ ih =>
    obtain ⟨hsize, hempty⟩ := first.size_le
    have hadd := position_add_size (a := a) d
    have hadd' := position_add_size (a := a') d'
    obtain ⟨φ, mono, hstart, hend, hlines⟩ := ih (a.add d) (a'.add d') (by omega)
    -- what lies before the second line keeps its distance from the first one
    let ψ (p : Nat) : Nat := if p < (a.add d).position then p + (a'.position - a.position) else φ p
    have hfirst : ψ a.position = a'.position := by
      dsimp only [ψ]
      split
      · omega
      · have hnone : d.size = 0 := by omega
        have hnone' := hempty hnone
        rw [hnone, Nat.add_zero] at hadd
        rw [← hadd, hstart]
        omega
    refine ⟨ψ, fun p q hpq => ?_, hfirst, ?_, ?_⟩
    · have hle := mono.monotone (a := (a.add d).position) (b := q)
      have hlt := mono hpq
      dsimp only [ψ]
      split <;> split <;> omega
    · have hle := position_le_foldl (a.add d) ds
      rw [List.foldl_cons, List.foldl_cons, ← hend]
      exact if_neg (by omega)
    · refine .cons ⟨Nat.le_refl _, hfirst.symm, first⟩
        (hlines.imp fun c c' hc => ⟨by omega, ?_, hc.2.2⟩)
      exact hc.2.1.trans (if_neg (by omega)).symm

theorem lookup_map_snd (φ : Nat → Nat) (marks : List (Label × Nat)) (label : Label) :
    (marks.map fun m => (m.1, φ m.2)).lookup label = (marks.lookup label).map φ := by
  induction marks with
  | nil => rfl
  | cons m marks ih =>
    rw [List.map_cons, List.lookup_cons, List.lookup_cons, ih]
    cases label == m.1 <;> rfl

/-- Marks go to where their lines lie. -/
theorem marks_foldl (a a' : Assembly) {φ : Nat → Nat}
    (general : List.Forall₂ Directive.Generalises ds ds')
    (places : List.Forall₂ (fun c c' => c'.1 = φ c.1) (a.added ds) (a'.added ds'))
    (start : a'.marks = a.marks.map fun m => (m.1, φ m.2)) :
    (ds'.foldl add a').marks = (ds.foldl add a).marks.map fun m => (m.1, φ m.2) := by
  induction general generalizing a a' with
  | nil => exact start
  | @cons d d' _ _ first _ ih =>
    obtain ⟨hplace, places⟩ := List.forall₂_cons.mp places
    refine ih (a.add d) (a'.add d') places ?_
    by_cases hmark : ∃ label, d = .mark label
    · obtain ⟨label, rfl⟩ := hmark
      obtain rfl := (first.mark_iff label).mpr rfl
      rw [marks_mark, marks_mark, start, List.map_cons]
      exact congrArg (fun p => (label, p) :: _) hplace
    · have other : ∀ label, d ≠ .mark label := fun label hl => hmark ⟨label, hl⟩
      have other' : ∀ label, d' ≠ .mark label := fun label hl =>
        other label ((first.mark_iff label).mp hl)
      rw [marks_add other, marks_add other', start]

end Assembly

/-! ### Lines that become instructions -/

namespace Directive

variable {φ : Nat → Nat} {marked marked' : Label → Nat → Prop} {d d' : Directive} {i i' : Instr}

theorem becomes_putObject {v : Value} (h : Becomes marked (.putObject v) i) :
    i.line = if v = .fixnum 0 then (.putZero, []) else if v = .fixnum 1 then (.putOne, [])
      else (.putObject, [v.bits]) := by
  generalize hd : Directive.putObject v = d at h
  cases h with
  | zero line => cases hd; rw [if_pos rfl, line]
  | one line =>
    cases hd
    rw [if_neg (by decide), if_pos rfl, line]
  | object not_zero not_one line =>
    cases hd
    rw [if_neg not_zero, if_neg not_one, line]
  | _ => cases hd

/-- An operator is sent to the receiver with one argument. -/
theorem operator_sends {selector : Word} (h : i.opcode.selector? = some selector) :
    i.sends? = some (selector, 1) ∧ i.constant? = none := by
  unfold Instr.sends? Instr.constant?
  cases hop : i.opcode <;> rw [hop] at h <;> cases h <;> exact ⟨rfl, rfl⟩

theorem line_sends {selector count : Word} (h : i.line = (.send, [selector, count])) :
    i.sends? = some (selector, count.toNat) ∧ i.constant? = none := by
  have hop : i.opcode = .send := congrArg Prod.fst h
  rw [Instr.sends?, Instr.constant?, hop, Instr.word_eq_line, Instr.word_eq_line, h]
  exact ⟨rfl, rfl⟩

theorem line_pushes {w : Word} (h : i.line = (.putObject, [w])) :
    i.constant? = some w ∧ i.sends? = none := by
  have hop : i.opcode = .putObject := congrArg Prod.fst h
  rw [Instr.constant?, Instr.sends?, hop, Instr.word_eq_line, h]
  exact ⟨rfl, rfl⟩

/-- The opcodes for 0 and 1 push these integers. -/
theorem small_pushes {v : Value} (small : v = .fixnum 0 ∨ v = .fixnum 1)
    (h : Becomes marked (.putObject v) i) : i.constant? = some v.bits ∧ i.sends? = none := by
  have line := becomes_putObject h
  rcases small with rfl | rfl
  · have hop : i.opcode = .putZero := congrArg Prod.fst line
    rw [Instr.constant?, Instr.sends?, hop]
    exact ⟨rfl, rfl⟩
  · have hop : i.opcode = .putOne := congrArg Prod.fst line
    rw [Instr.constant?, Instr.sends?, hop]
    exact ⟨rfl, rfl⟩

theorem alike_of_lines {line : Opcode × List Word} (kinds : List OperandKind) (h : i.line = line)
    (h' : i'.line = line) (layout : line.1.layout = some kinds) (level : .offset ∉ kinds) :
    i.Alike φ i' := by
  refine .plain (h'.trans h.symm) ?_ level
  rw [← layout, ← h]
  rfl

theorem tables_correspond (moves : ∀ l p p', marked l p → marked' l p' → p' = φ p)
    {cases : List (Value × Label)} {table table' : List (Value × Nat)}
    (h : List.Forall₂ (fun c t => c.1 = t.1 ∧ marked c.2 t.2) cases table)
    (h' : List.Forall₂ (fun c t => c.1 = t.1 ∧ marked' c.2 t.2) cases table') :
    table' = table.map fun c => (c.1, φ c.2) := by
  induction h generalizing table' with
  | nil => cases h'; rfl
  | cons first _ ih =>
    cases h' with
    | cons first' rest' =>
      rw [List.map_cons, ih rest', ← moves _ _ _ first.2 first'.2, ← first.1, first'.1]

/-- Instructions that lines become do the same if the one line says what the other one says, and if the
labels are marked at places that correspond. -/
theorem Generalises.alike (g : d.Generalises d') (movable : d.Movable)
    (moves : ∀ l p p', marked l p → marked' l p' → p' = φ p) (h : Becomes marked d i)
    (h' : Becomes marked' d' i') : i.Alike φ i' := by
  cases g with
  | same =>
    cases d with
    | emit op operands =>
      obtain ⟨kinds, layout, level, -⟩ := movable
      cases h with
      | emit line =>
      cases h' with
      | emit line' => exact alike_of_lines kinds line line' layout level
    | putObject v =>
      have line := becomes_putObject h
      have line' := becomes_putObject h'
      split at line
      next zero =>
        rw [if_pos zero] at line'
        exact alike_of_lines [] line line' rfl List.not_mem_nil
      next not_zero =>
        rw [if_neg not_zero] at line'
        split at line
        next one =>
          rw [if_pos one] at line'
          exact alike_of_lines [] line line' rfl List.not_mem_nil
        next not_one =>
          rw [if_neg not_one] at line'
          exact alike_of_lines [.value] line line' rfl (by decide)
    | newArray count =>
      cases h with
      | newArray line =>
      cases h' with
      | newArray line' => exact alike_of_lines [.literal] line line' rfl (by decide)
    | send selector count =>
      cases h with
      | send line =>
      cases h' with
      | send line' => exact alike_of_lines [.value, .literal] line line' rfl (by decide)
    | jump op label =>
      cases h with
      | jump opcode mark leads =>
      cases h' with
      | jump opcode' mark' leads' =>
        rw [moves _ _ _ mark mark'] at leads'
        exact .jump (opcode'.trans opcode.symm) (opcode ▸ Opcode.layout_of_offset movable) leads leads'
    | dispatch cases other =>
      cases h with
      | dispatch marks otherMark leads =>
      cases h' with
      | dispatch marks' otherMark' leads' =>
        rw [tables_correspond moves marks marks', moves _ _ _ otherMark otherMark'] at leads'
        exact .dispatch leads leads'
    | mark label => cases h
  | @operator op selector sends =>
    cases h with
    | emit line =>
    cases h' with
    | send line' =>
      have hop : i.opcode = op := congrArg Prod.fst line
      obtain ⟨calls, constant⟩ := operator_sends (hop ▸ sends)
      obtain ⟨calls', constant'⟩ := line_sends line'
      exact .special (constant'.trans constant.symm) (calls'.trans calls.symm) (.inr ⟨_, calls⟩)
  | @integer v small =>
    cases h' with
    | emit line' =>
      obtain ⟨pushes, calls⟩ := small_pushes small h
      obtain ⟨pushes', calls'⟩ := line_pushes line'
      exact .special (pushes'.trans pushes.symm) (calls'.trans calls.symm) (.inl ⟨_, pushes⟩)

end Directive

/-- Of two lists that go together with others the one goes together with the other. -/
theorem forall₂_between {α β γ δ : Type} {R : α → β → Prop} {S : α → γ → Prop} {T : β → δ → Prop}
    {xs : List α} {ys : List β} {us : List γ} {vs : List δ} (h : List.Forall₂ R xs ys)
    (left : List.Forall₂ S xs us) (right : List.Forall₂ T ys vs) :
    List.Forall₂ (fun u v => ∃ x y, R x y ∧ S x u ∧ T y v) us vs := by
  induction h generalizing us vs with
  | nil => cases left; cases right; exact .nil
  | cons first _ ih =>
    cases left with
    | cons hleft left =>
    cases right with
    | cons hright right => exact .cons ⟨_, _, first, hleft, hright⟩ (ih left right)

namespace Assembly

variable {a : Assembly} {ds ds' : List Directive}

theorem length_of_words {code : List Word} (marked : ∀ l ∈ ds.flatMap Directive.labels, .mark l ∈ ds)
    (h : (ofDirectives ds).words = .ok code) : code.length = (ofDirectives ds).position := by
  rw [words_of_marks marked] at h
  cases h
  exact length_filled _

theorem mem_of_mem_added {c : Nat × Directive} (h : c ∈ a.added ds) : c.2 ∈ ds := by
  induction ds generalizing a with
  | nil => cases h
  | cons d ds ih =>
    rcases List.mem_cons.mp h with rfl | h
    · exact List.mem_cons_self
    · exact List.mem_cons_of_mem d (ih h)

theorem labels_eq_of_generalises (general : List.Forall₂ Directive.Generalises ds ds') :
    ds'.flatMap Directive.labels = ds.flatMap Directive.labels := by
  induction general with
  | nil => rfl
  | cons first _ ih => rw [List.flatMap_cons, List.flatMap_cons, first.labels_eq, ih]

theorem mark_mem_iff_of_generalises (general : List.Forall₂ Directive.Generalises ds ds')
    (label : Label) : .mark label ∈ ds' ↔ .mark label ∈ ds := by
  induction general with
  | nil => rfl
  | cons first _ ih =>
    rw [List.mem_cons, List.mem_cons, ih, eq_comm, first.mark_iff, eq_comm]

theorem position_le_of_generalises (general : List.Forall₂ Directive.Generalises ds ds') :
    (ofDirectives ds).position ≤ (ofDirectives ds').position := by
  obtain ⟨φ, mono, -, hend, -⟩ := exists_place {} {} general (Nat.le_refl _)
  change φ (ofDirectives ds).position = (ofDirectives ds').position at hend
  rw [← hend]
  exact mono.le_apply

/-- Where all labels are marked, both texts are finished code, and their instructions correspond. -/
theorem words_correspond (general : List.Forall₂ Directive.Generalises ds ds')
    (movable : ∀ d ∈ ds, d.Movable) (fits : (ofDirectives ds').position < 2 ^ 63)
    (marked : ∀ l ∈ ds.flatMap Directive.labels, .mark l ∈ ds) :
    ∃ φ code code' instrs instrs', (ofDirectives ds).words = .ok code ∧
      (ofDirectives ds').words = .ok code' ∧ Code.Corresponds φ code code' instrs instrs' := by
  have movable' : ∀ d ∈ ds', d.Movable := fun d' hd' => by
    obtain ⟨d, hd, h⟩ := exists_rel_of_mem_right general hd'
    exact h.movable (movable d hd)
  have marked' : ∀ l ∈ ds'.flatMap Directive.labels, .mark l ∈ ds' := by
    rw [labels_eq_of_generalises general]
    exact fun l hl => (mark_mem_iff_of_generalises general l).mpr (marked l hl)
  have fits₀ := Nat.lt_of_le_of_lt (position_le_of_generalises general) fits
  obtain ⟨code, instrs, finished, decoded, assembles⟩ :=
    words_assembles (fun d hd => (movable d hd).proper) fits₀ marked
  obtain ⟨code', instrs', finished', decoded', assembles'⟩ :=
    words_assembles (fun d hd => (movable' d hd).proper) fits marked'
  have spells := Code.decodeAll_eq_ok_iff.mp decoded
  have spells' := Code.decodeAll_eq_ok_iff.mp decoded'
  obtain ⟨φ, mono, zero, hend, places⟩ := exists_place {} {} general (Nat.le_refl _)
  have length : code'.length = φ code.length := by
    rw [length_of_words marked finished, length_of_words marked' finished']
    exact hend.symm
  have marks := marks_foldl {} {} general (places.imp fun _ _ h => h.2.1) rfl
  have moves (l : Label) (p p' : Nat) (h : LastMarked ds l p) (h' : LastMarked ds' l p') :
      p' = φ p := by
    have found := lookup_marks_eq_some_iff.mpr h
    have found' := lookup_marks_eq_some_iff.mpr h'
    change (ofDirectives ds').marks = (ofDirectives ds).marks.map fun m => (m.1, φ m.2) at marks
    rw [marks, lookup_map_snd, found] at found'
    exact (Option.some.inj found').symm
  have emitted := List.rel_filter (p := fun c => c.2.emits) (q := fun c => c.2.emits)
    (fun c c' h => by
      show c.2.emits = true ↔ c'.2.emits = true
      rw [h.1.2.2.emits_eq]) (forall₂_mem places)
  have starts := (forall₂_between emitted assembles assembles').imp
    (S := fun i i' => i'.position = φ i.position ∧ i.Alike φ i') fun i i' h => by
      obtain ⟨c, c', ⟨⟨-, hplace, hgeneral⟩, hc, -⟩, ⟨hi, becomes⟩, hi', becomes'⟩ := h
      have hmovable := movable c.2 (mem_of_mem_added hc)
      exact ⟨by rw [hi, hi', hplace], hgeneral.alike hmovable moves becomes becomes'⟩
  have spans := spells.contiguous
  have spans' := spells'.contiguous
  rw [Nat.zero_add] at spans spans'
  have relocates := (forall₂_mem (spans.forall₂_next spans' starts length)).imp
    (S := Instr.Relocates φ) fun i i' h => by
      obtain ⟨⟨hposition, hnext, halike⟩, hi, hi'⟩ := h
      exact ⟨spells.whole i hi, spells'.whole i' hi', hposition, hnext, halike⟩
  exact ⟨φ, code, code', instrs, instrs', finished, finished',
    mono, zero, length, spells, spells', relocates⟩

theorem maxDepth_eq_of_generalises (general : List.Forall₂ Directive.Generalises ds ds') :
    (ofDirectives ds').maxDepth = (ofDirectives ds).maxDepth :=
  congrArg Prod.snd (heights_foldl {} {} (general.imp fun _ _ h => h.effect?_eq) rfl)

/-- A mark is complained of in both texts or in neither. -/
theorem complaint?_eq_of_generalises (general : List.Forall₂ Directive.Generalises ds ds')
    {d d' : Directive} (h : d.Generalises d') :
    (ofDirectives ds').complaint? d' = (ofDirectives ds).complaint? d := by
  cases h with
  | same =>
    cases d with
    | mark label =>
      have marked : (ofDirectives ds').marked label = (ofDirectives ds).marked label := by
        rw [Bool.eq_iff_iff, marked_iff, marked_iff, mark_mem_iff_of_generalises general]
      rw [complaint?, complaint?, marked]
    | _ => rfl
  | operator => rfl
  | integer => rfl

variable {name : String} {params locals : Nat} {stackMax? : Option Nat}

/-- Finished code with these instructions is taken just if they are in order. -/
theorem build_ok_iff {code : List Word} {instrs : List Instr}
    (finished : (ofDirectives ds).words = .ok code) (spells : Code.Spells 0 instrs code) :
    (∃ m, (ofDirectives ds).build name params locals stackMax? = .ok m) ↔
      Code.WellFormed code params locals instrs := by
  simp only [build_of_words finished, mapError_eq_ok_iff]
  constructor
  · rintro ⟨m, h⟩
    obtain ⟨-, rfl, -, rfl, rfl⟩ := Method.ofCode_eq_ok_iff.mp h
    obtain rfl := Method.instrs_of_decodeAll (Code.decodeAll_eq_ok_iff.mpr spells)
    exact Code.verify_eq_ok_iff.mp m.verified
  · intro h
    obtain ⟨m, hm, -⟩ := Method.exists_ofCode_iff.mpr (Code.verify_of_wellFormed h)
    exact ⟨m, hm⟩

theorem of_build {code : List Word} {instrs : List Instr} {m : Method}
    (finished : (ofDirectives ds).words = .ok code) (spells : Code.Spells 0 instrs code)
    (h : (ofDirectives ds).build name params locals stackMax? = .ok m) :
    m.name = name ∧ m.code = code ∧ m.stackMax = stackMax?.getD (ofDirectives ds).maxDepth ∧
      m.params = params ∧ m.locals = locals ∧ m.instrs = instrs := by
  rw [build_of_words finished, mapError_eq_ok_iff] at h
  obtain ⟨hname, hcode, hmax, hparams, hlocals⟩ := Method.ofCode_eq_ok_iff.mp h
  rw [← hcode] at spells
  exact ⟨hname, hcode, hmax, hparams, hlocals,
    Method.instrs_of_decodeAll (Code.decodeAll_eq_ok_iff.mpr spells)⟩

/-- Whichever way code is written, with opcodes for special cases or without them, the same marks are
complained of, it becomes a method or not, with the same bound of the stack, and the standard lowering
compiles it to the same function or fails with the same error but for positions. A memory whose
addresses are words holds no code of 2^63 words. -/
theorem compile_generalised (name : String) (params locals : Nat) (stackMax? : Option Nat)
    {ds ds' : List Directive} (general : List.Forall₂ Directive.Generalises ds ds')
    (movable : ∀ d ∈ ds, d.Movable) (fits : (ofDirectives ds').position < 2 ^ 63) :
    (∀ n d d', ds[n]? = some d → ds'[n]? = some d' →
      (ofDirectives (ds'.take n)).complaint? d' = (ofDirectives (ds.take n)).complaint? d) ∧
    ((∃ m, (ofDirectives ds).build name params locals stackMax? = .ok m) ↔
      ∃ m', (ofDirectives ds').build name params locals stackMax? = .ok m') ∧
    ∀ m m', (ofDirectives ds).build name params locals stackMax? = .ok m →
      (ofDirectives ds').build name params locals stackMax? = .ok m' →
      m'.stackMax = m.stackMax ∧ ∃ φ, StrictMono φ ∧ ∀ listUnsupported x,
        Mirrored φ (fun k k' => k'.func = k.func)
          ((⟨m, .standard, listUnsupported⟩ : Compiler).compile x).result
          ((⟨m', .standard, listUnsupported⟩ : Compiler).compile x).result := by
  refine ⟨fun n d d' hd hd' => ?_, ?_⟩
  · obtain ⟨hn, rfl⟩ := List.getElem?_eq_some_iff.mp hd
    obtain ⟨hn', rfl⟩ := List.getElem?_eq_some_iff.mp hd'
    exact complaint?_eq_of_generalises (List.forall₂_take n general) (general.get hn hn')
  rcases forall_or_firstBad (fun l => .mark l ∈ ds) (ds.flatMap Directive.labels) with
    marked | ⟨label, first⟩
  · obtain ⟨φ, code, code', instrs, instrs', finished, finished', h⟩ :=
      words_correspond general movable fits marked
    refine ⟨?_, fun m m' built built' => ?_⟩
    · rw [build_ok_iff finished h.spells, build_ok_iff finished' h.spells', h.wellFormed_iff]
    obtain ⟨hname, hcode, hmax, hparams, hlocals, hinstrs⟩ := of_build finished h.spells built
    obtain ⟨hname', hcode', hmax', hparams', hlocals', hinstrs'⟩ :=
      of_build finished' h.spells' built'
    have stackMax : m'.stackMax = m.stackMax := by
      rw [hmax, hmax', maxDepth_eq_of_generalises general]
    rw [← hcode, ← hcode', ← hinstrs, ← hinstrs'] at h
    have mirrors := Method.mirrors_of_corresponds (hname'.trans hname.symm)
      (hparams'.trans hparams.symm) (hlocals'.trans hlocals.symm) stackMax h
    refine ⟨stackMax, φ, h.mono, fun listUnsupported x => ?_⟩
    let c : Compiler := ⟨m, .standard, listUnsupported⟩
    let c' : Compiler := ⟨m', .standard, listUnsupported⟩
    have compiled : Mirrored φ _ (c.compile x).result (c'.compile x).result :=
      Compiler.mirrored_compile rfl rfl mirrors x trivial fun _ _ _ _ _ _ _ _ _ _ => trivial
    exact compiled.imp fun _ _ hk => hk.1
  · have first' : FirstBad (fun l => .mark l ∈ ds') (ds'.flatMap Directive.labels) label := by
      rw [labels_eq_of_generalises general]
      simpa only [mark_mem_iff_of_generalises general] using first
    rw [build_of_unmarked first, build_of_unmarked first']
    exact ⟨iff_of_false nofun nofun, nofun⟩

/-- Counts up to the parameter: `putobject 0; setlocal 1; L: getlocal 1; getlocal 0; opt_lt;
branchunless M; getlocal 1; putobject 1; opt_plus; setlocal 1; jump L; M: getlocal 1; leave`. -/
def counting : List Directive :=
  [.putObject (.fixnum 0), .emit .setLocal [1], .mark 0, .emit .getLocal [1], .emit .getLocal [0],
    .emit .optLt [], .jump .branchUnless 1, .emit .getLocal [1], .putObject (.fixnum 1),
    .emit .optPlus [], .emit .setLocal [1], .jump .jump 0, .mark 1, .emit .getLocal [1],
    .emit .leave []]

/-- The same in general terms, but for the 0 at the beginning. -/
def countingGenerally : List Directive :=
  [.putObject (.fixnum 0), .emit .setLocal [1], .mark 0, .emit .getLocal [1], .emit .getLocal [0],
    .send Selector.lt 1, .jump .branchUnless 1, .emit .getLocal [1],
    .emit .putObject [(Value.fixnum 1).bits], .send Selector.plus 1, .emit .setLocal [1],
    .jump .jump 0, .mark 1, .emit .getLocal [1], .emit .leave []]

def counted : Method where
  name := "counting"
  code := [5, 13, 1, 12, 1, 12, 0, 18, 27, 8, 12, 1, 6, 15, 13, 1, 25, 18446744073709551601, 12, 1, 23]
  stackMax := 2
  params := 1
  locals := 2
  instrs := [⟨0, .putZero, []⟩, ⟨1, .setLocal, [.literal 1]⟩, ⟨3, .getLocal, [.literal 1]⟩,
    ⟨5, .getLocal, [.literal 0]⟩, ⟨7, .optLt, []⟩, ⟨8, .branchUnless, [.offset 8]⟩,
    ⟨10, .getLocal, [.literal 1]⟩, ⟨12, .putOne, []⟩, ⟨13, .optPlus, []⟩,
    ⟨14, .setLocal, [.literal 1]⟩, ⟨16, .jump, [.offset 18446744073709551601]⟩,
    ⟨18, .getLocal, [.literal 1]⟩, ⟨20, .leave, []⟩]
  verified := by cbv

def countedGenerally : Method where
  name := "counting"
  code := [5, 13, 1, 12, 1, 12, 0, 14, 0x3c, 1, 27, 11, 12, 1, 4, 3, 14, 0x2b, 1, 13, 1, 25,
    18446744073709551596, 12, 1, 23]
  stackMax := 2
  params := 1
  locals := 2
  instrs := [⟨0, .putZero, []⟩, ⟨1, .setLocal, [.literal 1]⟩, ⟨3, .getLocal, [.literal 1]⟩,
    ⟨5, .getLocal, [.literal 0]⟩, ⟨7, .send, [.value ⟨0x3c⟩, .literal 1]⟩,
    ⟨10, .branchUnless, [.offset 11]⟩, ⟨12, .getLocal, [.literal 1]⟩, ⟨14, .putObject, [.value ⟨3⟩]⟩,
    ⟨16, .send, [.value ⟨0x2b⟩, .literal 1]⟩, ⟨19, .setLocal, [.literal 1]⟩,
    ⟨21, .jump, [.offset 18446744073709551596]⟩, ⟨23, .getLocal, [.literal 1]⟩, ⟨25, .leave, []⟩]
  verified := by cbv

/-- Both loops are assembled and compiled, to the same function. -/
theorem counting_same_function :
    (ofDirectives counting).build "counting" 1 2 none = .ok counted ∧
    (ofDirectives countingGenerally).build "counting" 1 2 none = .ok countedGenerally ∧
    ∃ k k', ((⟨counted, .standard, true⟩ : Compiler).compile .standard).result = .ok k ∧
      ((⟨countedGenerally, .standard, true⟩ : Compiler).compile .standard).result = .ok k' ∧
      k'.func = k.func := by
  have general : List.Forall₂ Directive.Generalises counting countingGenerally := by
    iterate 5 apply List.Forall₂.cons (.same _)
    apply List.Forall₂.cons (.operator rfl)
    iterate 2 apply List.Forall₂.cons (.same _)
    apply List.Forall₂.cons (.integer (.inr rfl))
    apply List.Forall₂.cons (.operator rfl)
    iterate 5 apply List.Forall₂.cons (.same _)
    exact .nil
  have movable : ∀ d ∈ counting, d.Movable := by
    simp [counting, Directive.Movable, Directive.Proper, Opcode.layout, Opcode.control]
  have finished : (ofDirectives counting).words = .ok counted.code := by rfl
  have finished' : (ofDirectives countingGenerally).words = .ok countedGenerally.code := by rfl
  have built : (ofDirectives counting).build "counting" 1 2 none = .ok counted := by
    rw [build_of_words finished, mapError_eq_ok_iff]
    exact Method.ofCode_eq_ok_iff.mpr ⟨rfl, rfl, rfl, rfl, rfl⟩
  have built' : (ofDirectives countingGenerally).build "counting" 1 2 none =
      .ok countedGenerally := by
    rw [build_of_words finished', mapError_eq_ok_iff]
    exact Method.ofCode_eq_ok_iff.mpr ⟨rfl, rfl, rfl, rfl, rfl⟩
  obtain ⟨-, φ, -, mirrored⟩ := (compile_generalised "counting" 1 2 none general movable
    (by decide)).2.2 counted countedGenerally built built'
  obtain ⟨j, hj, -⟩ := Compiler.journal_of_advanceBy (c := ⟨counted, .standard, true⟩)
    (x := .standard) (P := fun _ => True) 4 (by cbv)
  have compiled := Compiler.compile_of_journal hj
  have same := mirrored true .standard
  rw [compiled] at same
  generalize ((⟨countedGenerally, .standard, true⟩ : Compiler).compile .standard).result = r at same ⊢
  cases same with
  | @ok _ k' related => exact ⟨built, built', j.compiled, k', compiled, rfl, related⟩

end Assembly

end StackFlow
