import StackFlow.Assembly
import StackFlow.Proofs.Code.Acceptance

/-!
Back-patching. The offsets that are put into the code change no other word: the finished code is that
of the lines one after the other, each with its offsets written out.
-/
namespace StackFlow

namespace Directive

/-- Labels that the line refers to. -/
def labels : Directive → List Label
  | .jump _ label => [label]
  | .dispatch cases other => cases.map Prod.snd ++ [other]
  | _ => []

theorem length_flatMap_pair {α β : Type} (f g : α → β) (xs : List α) :
    (xs.flatMap fun x => [f x, g x]).length = 2 * xs.length := by
  induction xs with
  | nil => rfl
  | cons x xs ih =>
    simp only [List.flatMap_cons, List.length_append, ih, List.length_cons, List.length_nil]
    omega

/-- Opcode and operand words of a dispatch. -/
def tableLine (cases : List (Value × Word)) (other : Word) : Opcode × List Word :=
  (.caseDispatch,
    UInt64.ofNat cases.length :: (cases.flatMap (fun c => [c.1.bits, c.2]) ++ [other]))

/-- Opcode and operand words of a line that stands at the position; `offset label base` is the word for
the offset to the label from `base`. -/
def line? (offset : Label → Nat → Word) (position : Nat) : Directive → Option (Opcode × List Word)
  | .emit op operands => some (op, operands)
  | .putObject v =>
    if v = Value.fixnum 0 then some (.putZero, [])
    else if v = Value.fixnum 1 then some (.putOne, [])
    else some (.putObject, [v.bits])
  | .newArray count => some (.newArray, [count])
  | .send selector count => some (.send, [selector, count])
  | .jump op label => some (op, [offset label (position + 2)])
  | .dispatch cases other =>
    let base := position + 2 * cases.length + 3
    some (tableLine (cases.map fun c => (c.1, offset c.2 base)) (offset other base))
  | .mark _ => none

/-- Words of a line that stands at the position. -/
def words (offset : Label → Nat → Word) (position : Nat) (d : Directive) : List Word :=
  Code.spell (d.line? offset position).toList

/-- Places of the offsets of cases that start at the position. -/
def caseSlots (position : Nat) : List (Value × Label) → List (Nat × Label)
  | [] => []
  | (_, label) :: cases => (position + 1, label) :: caseSlots (position + 2) cases

/-- The offsets in a line that stands at the position. -/
def waits (position : Nat) : Directive → List Unresolved
  | .jump _ label => [⟨position + 1, position + 2, label⟩]
  | .dispatch cases other =>
    let slots := caseSlots (position + 2) cases ++ [(position + 2 * cases.length + 2, other)]
    slots.map fun s => ⟨s.1, position + 2 * cases.length + 3, s.2⟩
  | _ => []

theorem map_snd_caseSlots (position : Nat) (cases : List (Value × Label)) :
    (caseSlots position cases).map Prod.snd = cases.map Prod.snd := by
  induction cases generalizing position with
  | nil => rfl
  | cons c cases ih => rw [caseSlots, List.map_cons, List.map_cons, ih]

theorem map_label_waits (d : Directive) (position : Nat) :
    (d.waits position).map Unresolved.label = d.labels := by
  cases d with
  | dispatch cases other =>
    simp only [waits, labels, List.map_map, List.map_append, List.map_cons, List.map_nil,
      ← map_snd_caseSlots (position + 2) cases]
    rfl
  | _ => rfl

end Directive

namespace Assembly

variable {a : Assembly}

@[simp] theorem track_code (pops pushes : Nat) : (a.track pops pushes).code = a.code := rfl

@[simp] theorem track_unresolved (pops pushes : Nat) :
    (a.track pops pushes).unresolved = a.unresolved := rfl

@[simp] theorem track_marks (pops pushes : Nat) : (a.track pops pushes).marks = a.marks := rfl

@[simp] theorem trackOpcode_code (op : Opcode) : (a.trackOpcode op).code = a.code := by
  unfold trackOpcode; split <;> rfl

@[simp] theorem trackOpcode_unresolved (op : Opcode) :
    (a.trackOpcode op).unresolved = a.unresolved := by
  unfold trackOpcode; split <;> rfl

@[simp] theorem trackOpcode_marks (op : Opcode) : (a.trackOpcode op).marks = a.marks := by
  unfold trackOpcode; split <;> rfl

@[simp] theorem emit_code (op : Opcode) (operands : List Word) :
    (a.emit op operands).code = a.code ++ op.word :: operands := by
  simp [emit, write]

@[simp] theorem emit_unresolved (op : Opcode) (operands : List Word) :
    (a.emit op operands).unresolved = a.unresolved := by
  simp [emit, write]

@[simp] theorem emit_marks (op : Opcode) (operands : List Word) :
    (a.emit op operands).marks = a.marks := by
  simp [emit, write]

theorem writeCases_eq (slots : List (Nat × Label)) (cases : List (Value × Label)) :
    a.writeCases slots cases =
      (a.write (cases.flatMap fun c => [c.1.bits, 0]),
        slots ++ Directive.caseSlots a.position cases) := by
  induction cases generalizing a slots with
  | nil => simp [writeCases, write, Directive.caseSlots]
  | cons c cases ih =>
    rw [writeCases, ih]
    simp [write, position, Directive.caseSlots]

theorem awaits_eq (base : Nat) (slots : List (Nat × Label)) :
    slots.foldl (fun a s => a.await s.1 base s.2) a =
      { a with unresolved := a.unresolved ++ slots.map fun s => ⟨s.1, base, s.2⟩ } := by
  induction slots generalizing a with
  | nil => simp
  | cons s slots ih =>
    rw [List.foldl_cons, ih]
    simp [await]

theorem words_dispatch (offset : Label → Nat → Word) (position : Nat) (cases : List (Value × Label))
    (other : Label) :
    (Directive.dispatch cases other).words offset position =
      Opcode.caseDispatch.word :: UInt64.ofNat cases.length ::
        (cases.flatMap (fun c => [c.1.bits, offset c.2 (position + 2 * cases.length + 3)]) ++
          [offset other (position + 2 * cases.length + 3)]) := by
  simp [Directive.words, Directive.line?, Directive.tableLine, Code.spell, List.flatMap_map]

/-- A dispatch writes its table with 0 for each offset, and all of these wait. -/
theorem dispatch_eq (cases : List (Value × Label)) (other : Label) :
    a.dispatch cases other =
      { a.track 1 0 with
        code := a.code ++ (Directive.dispatch cases other).words (fun _ _ => 0) a.position
        unresolved := a.unresolved ++ (Directive.dispatch cases other).waits a.position } := by
  have hbase : a.position + 2 + cases.length * 2 + 1 = a.position + 2 * cases.length + 3 := by
    omega
  have hslot : a.code.length + (2 * cases.length + 1 + 1) =
      a.code.length + 2 * cases.length + 2 := by omega
  have hlength := Directive.length_flatMap_pair (fun c : Value × Label => c.1.bits)
    (fun _ => (0 : Word)) cases
  simp only [dispatch, writeCases_eq, hbase]
  apply (awaits_eq _ _).trans
  rw [words_dispatch]
  simp [write, position, Directive.waits, hlength, hslot]

theorem add_code (d : Directive) :
    (a.add d).code = a.code ++ d.words (fun _ _ => 0) a.position := by
  cases d with
  | putObject v =>
    simp only [add, putObject, Directive.words, Directive.line?]
    split
    · simp [Code.spell]
    · split <;> simp [Code.spell]
  | dispatch cases other => rw [add, dispatch_eq]
  | mark label => simp [add, mark, Directive.words, Directive.line?, Code.spell]
  | _ => simp [add, jump, await, Directive.words, Directive.line?, Code.spell]

theorem add_unresolved (d : Directive) :
    (a.add d).unresolved = a.unresolved ++ d.waits a.position := by
  cases d with
  | putObject v =>
    simp only [add, putObject, Directive.waits]
    split
    · simp
    · split <;> simp
  | dispatch cases other => rw [add, dispatch_eq]
  | mark label => simp [add, mark, Directive.waits]
  | _ => simp [add, jump, await, Directive.waits, position]

theorem marks_mark (label : Label) :
    (a.add (.mark label)).marks = (label, a.position) :: a.marks := rfl

/-- Only marks are marks. -/
theorem marks_add {d : Directive} (h : ∀ label, d ≠ .mark label) : (a.add d).marks = a.marks := by
  cases d with
  | putObject v =>
    simp only [add, putObject]
    split
    · simp
    · split <;> simp
  | dispatch cases other => rw [add, dispatch_eq, track_marks]
  | mark label => exact absurd rfl (h label)
  | _ => simp [add, jump, await]

/-- The code with these words in the places of offsets. -/
def fill (offset : Label → Nat → Word) (code : List Word) (us : List Unresolved) : List Word :=
  us.foldl (fun code u => code.set u.slot (offset u.label u.base)) code

/-- The code with these words in the places of all its offsets. -/
def filled (offset : Label → Nat → Word) (a : Assembly) : List Word :=
  fill offset a.code a.unresolved

/-- Every offset that waits for its label has its place in the code. -/
def Placed (a : Assembly) : Prop := ∀ u ∈ a.unresolved, u.slot < a.position

section Fill

variable (offset : Label → Nat → Word)

theorem fill_cons (code : List Word) (u : Unresolved) (us : List Unresolved) :
    fill offset code (u :: us) = fill offset (code.set u.slot (offset u.label u.base)) us := rfl

theorem fill_append (code : List Word) (us vs : List Unresolved) :
    fill offset code (us ++ vs) = fill offset (fill offset code us) vs := List.foldl_append ..

theorem length_fill (code : List Word) (us : List Unresolved) :
    (fill offset code us).length = code.length := by
  induction us generalizing code with
  | nil => rfl
  | cons u us ih => rw [fill_cons, ih, List.length_set]

/-- What is put into the front of the code leaves the rest as it is. -/
theorem fill_append_left {code : List Word} {us : List Unresolved}
    (inside : ∀ u ∈ us, u.slot < code.length) (words : List Word) :
    fill offset (code ++ words) us = fill offset code us ++ words := by
  induction us generalizing code with
  | nil => rfl
  | cons u us ih =>
    obtain ⟨hu, hus⟩ := List.forall_mem_cons.mp inside
    have hmore : ∀ v ∈ us, v.slot < (code.set u.slot (offset u.label u.base)).length := by
      rwa [List.length_set]
    rw [fill_cons, fill_cons, List.set_append_left _ _ hu, ih hmore]

/-- The offsets of the cases of a table are put in their places. -/
theorem fill_caseSlots (base : Nat) (front : List Word) (cases : List (Value × Label))
    (back : List Word) :
    fill offset (front ++ (cases.flatMap (fun c => [c.1.bits, 0]) ++ back))
        ((Directive.caseSlots front.length cases).map fun s => ⟨s.1, base, s.2⟩) =
      front ++ (cases.flatMap (fun c => [c.1.bits, offset c.2 base]) ++ back) := by
  induction cases generalizing front with
  | nil => rfl
  | cons c cases ih =>
    have hset : (front ++ c.1.bits :: 0 :: (cases.flatMap (fun c => [c.1.bits, 0]) ++ back)).set
        (front.length + 1) (offset c.2 base) =
        (front ++ [c.1.bits, offset c.2 base]) ++
          (cases.flatMap (fun c => [c.1.bits, 0]) ++ back) := by
      rw [List.set_append_right _ _ (Nat.le_succ _)]
      simp
    have hlength : front.length + 2 = (front ++ [c.1.bits, offset c.2 base]).length := by simp
    simp only [Directive.caseSlots, List.map_cons, fill_cons, List.flatMap_cons,
      List.cons_append, List.nil_append, hset]
    rw [hlength, ih]
    simp

/-- With the offsets in their places a line has the words that it has to have. -/
theorem fill_waits (front : List Word) (d : Directive) :
    fill offset (front ++ d.words (fun _ _ => 0) front.length) (d.waits front.length) =
      front ++ d.words offset front.length := by
  cases d with
  | jump op label => simp [fill, Directive.waits, Directive.words, Directive.line?, Code.spell]
  | dispatch cases other =>
    let base := front.length + 2 * cases.length + 3
    let head : List Word := [Opcode.caseDispatch.word, UInt64.ofNat cases.length]
    let done := front ++ head ++ cases.flatMap fun c => [c.1.bits, offset c.2 base]
    have hcases := fill_caseSlots offset base (front ++ head) cases [0]
    have hhead : (front ++ head).length = front.length + 2 := by simp [head]
    have hdone : done.length = front.length + 2 * cases.length + 2 := by
      rw [List.length_append, hhead, Directive.length_flatMap_pair]
      omega
    have hraw : front ++ (Directive.dispatch cases other).words (fun _ _ => 0) front.length =
        front ++ head ++ (cases.flatMap (fun c => [c.1.bits, 0]) ++ [0]) := by
      rw [words_dispatch]
      simp [head]
    -- the offsets of the cases are put in first, then the one for all other keys
    rw [hhead] at hcases
    rw [hraw, Directive.waits, List.map_append, fill_append, hcases, ← List.append_assoc,
      ← hdone, words_dispatch]
    simp [fill, done, head, base]
  | _ => rfl

end Fill

theorem slot_lt_of_mem_caseSlots {position : Nat} {cases : List (Value × Label)} {s : Nat × Label}
    (h : s ∈ Directive.caseSlots position cases) : s.1 < position + 2 * cases.length := by
  induction cases generalizing position with
  | nil => cases h
  | cons c cases ih =>
    rw [List.length_cons]
    rcases List.mem_cons.mp h with rfl | h
    · dsimp only
      omega
    · have := ih h
      omega

theorem slot_lt_of_mem_waits {d : Directive} {position : Nat} {u : Unresolved}
    (h : u ∈ d.waits position) : u.slot < position + (d.words (fun _ _ => 0) position).length := by
  cases d with
  | jump op label =>
    obtain rfl := List.mem_singleton.mp h
    simp [Directive.words, Directive.line?, Code.spell]
  | dispatch cases other =>
    obtain ⟨s, hs, rfl⟩ := List.mem_map.mp h
    have hlength := Directive.length_flatMap_pair (fun c : Value × Label => c.1.bits)
      (fun _ => (0 : Word)) cases
    simp only [words_dispatch, List.length_cons, List.length_append, hlength, List.length_nil]
    rcases List.mem_append.mp hs with hs | hs
    · have := slot_lt_of_mem_caseSlots hs
      omega
    · obtain rfl := List.mem_singleton.mp hs
      dsimp only
      omega
  | _ => cases h

section Run

variable (offset : Label → Nat → Word)

theorem length_filled : (a.filled offset).length = a.position :=
  length_fill offset a.code a.unresolved

/-- A further line leaves the finished code before it as it is. -/
theorem filled_add (placed : a.Placed) (d : Directive) :
    (a.add d).Placed ∧ (a.add d).filled offset = a.filled offset ++ d.words offset a.position := by
  constructor
  · intro u hu
    rw [position, add_code, List.length_append]
    rw [add_unresolved] at hu
    rcases List.mem_append.mp hu with hu | hu
    · exact Nat.lt_add_right _ (placed u hu)
    · exact slot_lt_of_mem_waits hu
  · have hline := fill_waits offset (a.filled offset) d
    rw [length_filled] at hline
    rw [filled, add_unresolved, add_code, fill_append, fill_append_left offset placed]
    exact hline

theorem position_add (placed : a.Placed) (d : Directive) :
    (a.add d).position = a.position + (d.words offset a.position).length := by
  rw [← length_filled offset, (filled_add offset placed d).2, List.length_append, length_filled]

/-- Lines with the positions at which they are added. -/
def added (a : Assembly) : List Directive → List (Nat × Directive)
  | [] => []
  | d :: ds => (a.position, d) :: (a.add d).added ds

/-- Opcodes and operand words of lines. -/
def lines (offset : Label → Nat → Word) (a : Assembly) (ds : List Directive) :
    List (Opcode × List Word) :=
  (a.added ds).filterMap fun c => c.2.line? offset c.1

theorem spell_append (ls ms : List (Opcode × List Word)) :
    Code.spell (ls ++ ms) = Code.spell ls ++ Code.spell ms := List.flatMap_append

theorem lines_cons (d : Directive) (ds : List Directive) :
    a.lines offset (d :: ds) =
      (d.line? offset a.position).toList ++ (a.add d).lines offset ds := by
  rw [lines, added, List.filterMap_cons]
  cases d.line? offset a.position <;> rfl

/-- Finished code consists of the lines, one after the other, with all offsets written out. -/
theorem filled_foldl (placed : a.Placed) (ds : List Directive) :
    (ds.foldl add a).filled offset = a.filled offset ++ Code.spell (a.lines offset ds) := by
  induction ds generalizing a with
  | nil => simp [lines, added, Code.spell]
  | cons d ds ih =>
    obtain ⟨placed', hfilled⟩ := filled_add offset placed d
    rw [List.foldl_cons, ih placed', hfilled, lines_cons, spell_append, List.append_assoc]
    rfl

theorem labels_foldl (ds : List Directive) :
    (ds.foldl add a).unresolved.map Unresolved.label =
      a.unresolved.map Unresolved.label ++ ds.flatMap Directive.labels := by
  induction ds generalizing a with
  | nil => simp
  | cons d ds ih =>
    rw [List.foldl_cons, ih, add_unresolved, List.map_append, Directive.map_label_waits,
      List.flatMap_cons, List.append_assoc]

end Run

/-- Where a label was last marked. -/
def dest (a : Assembly) (label : Label) : Nat := (a.marks.lookup label).getD 0

/-- The offset to a label, which `dest` knows the position of. -/
def offsetTo (dest : Label → Nat) (label : Label) (base : Nat) : Word := offset (dest label) base

theorem foldlM_patch {us : List Unresolved} (marked : ∀ u ∈ us, a.marked u.label)
    (code : List Word) :
    us.foldlM a.patch code = .ok (fill (offsetTo a.dest) code us) := by
  induction us generalizing code with
  | nil => rfl
  | cons u us ih =>
    obtain ⟨hu, hus⟩ := List.forall_mem_cons.mp marked
    obtain ⟨p, hp⟩ := Option.isSome_iff_exists.mp hu
    have hpatch : a.patch code u = .ok (code.set u.slot (offsetTo a.dest u.label u.base)) := by
      simp [patch, offsetTo, dest, hp]
    rw [List.foldlM_cons, hpatch]
    exact ih hus _

/-- All labels are marked: each offset is put in its place. -/
theorem words_of_marked (marked : ∀ l ∈ a.unresolved.map Unresolved.label, a.marked l) :
    a.words = .ok (a.filled (offsetTo a.dest)) :=
  foldlM_patch (fun _ hu => marked _ (List.mem_map_of_mem hu)) a.code

/-- The first label that is not marked is reported. -/
theorem words_of_firstBad {l : Label}
    (first : FirstBad (fun l => a.marked l) (a.unresolved.map Unresolved.label) l) :
    a.words = .error (.unmarkedLabel l) := by
  obtain ⟨before, after, hsplit, hbefore, bad⟩ := first
  obtain ⟨us, vs, hus, rfl, hvs⟩ := List.map_eq_append_iff.mp hsplit
  obtain ⟨u, vs, rfl, rfl, -⟩ := List.map_eq_cons_iff.mp hvs
  have hmarked : ∀ v ∈ us, a.marked v.label := fun v hv => hbefore _ (List.mem_map_of_mem hv)
  have hnone : a.marks.lookup u.label = none := by
    rw [← Option.not_isSome_iff_eq_none]
    exact bad
  rw [words, hus, List.foldlM_append, foldlM_patch hmarked]
  simp only [bind, Except.bind, List.foldlM_cons, patch, hnone]

end Assembly

end StackFlow
