import StackFlow.Compile.Lowering

/-!
Paths of control through a method's code, and the depth of the operand stack along them: the sum of
what the instructions on the path take and put.
-/
namespace StackFlow

namespace Instr

/-- The word that the instruction pushes, if it pushes a constant. -/
def constant? (i : Instr) : Option Word :=
  match i.opcode with
  | .putNil => some Value.nil.bits
  | .putObject => some (i.word 0)
  | .putZero => some (Value.fixnum 0).bits
  | .putOne => some (Value.fixnum 1).bits
  | _ => none

/-- Selector and number of arguments, if the instruction sends a method. -/
def sends? (i : Instr) : Option (Word × Nat) :=
  match i.opcode with
  | .send => some (i.word 0, (i.word 1).toNat)
  | op => op.selector?.map (·, 1)

/-- Values taken from the stack and values put on it. -/
def effect (i : Instr) : Nat × Nat :=
  match i.opcode with
  | .send => ((i.word 1).toNat + 1, 1)
  | .newArray => ((i.word 0).toNat, 1)
  | op => op.effect.getD (0, 0)

/-- Where control can go from the instruction. -/
def successors (i : Instr) : List Nat :=
  match i.opcode.control with
  | none => [i.next]
  | some .jump => i.jumpTarget?.toList
  | some (.branch _) => i.next :: i.jumpTarget?.toList
  | some .dispatch => i.dispatchTable?.elim [] fun (cases, other) => other :: cases.map Prod.snd
  | some (.exit _) => []

theorem effect_of_control {i : Instr} {control : Control} (h : i.opcode.control = some control) :
    i.effect = (if control = .jump then 0 else 1, 0) := by
  unfold effect
  cases hop : i.opcode <;> rw [hop] at h <;> cases h <;> rfl

theorem effect_of_sends {i : Instr} {selector : Word} {count : Nat}
    (h : i.sends? = some (selector, count)) : i.effect = (count + 1, 1) := by
  unfold sends? at h
  unfold effect
  cases hop : i.opcode <;> rw [hop] at h <;> cases h <;> rfl

theorem effect_of_constant {i : Instr} {w : Word} (h : i.constant? = some w) :
    i.effect = (0, 1) := by
  unfold constant? at h
  unfold effect
  cases hop : i.opcode <;> rw [hop] at h <;> cases h <;> rfl

theorem eq_of_position? {t : Int} {p : Nat} (h : position? t = some p) : (p : Int) = t := by
  unfold position? at h
  split at h
  · cases h
    omega
  · cases h

theorem mem_targets_of_entries? {i : Instr} {operands : List Operand}
    {cases : List (Value × Nat)} {other : Nat} (h : i.entries? operands = some (cases, other)) :
    ∀ p ∈ other :: cases.map Prod.snd, (p : Int) ∈ operands.filterMap fun
      | .offset w => some (i.target w)
      | _ => none := by
  fun_induction i.entries? operands generalizing cases other with
  | case1 w =>
    obtain ⟨p, hp, he⟩ := Option.bind_eq_some_iff.mp h
    cases he
    simp [eq_of_position? hp]
  | case2 key w rest ih =>
    obtain ⟨dest, hd, h₁⟩ := Option.bind_eq_some_iff.mp h
    obtain ⟨⟨more, last⟩, hm, he⟩ := Option.bind_eq_some_iff.mp h₁
    cases he
    have hrest := ih hm
    intro p hp
    simp only [List.map_cons, List.mem_cons] at hp
    simp only [List.filterMap_cons, List.mem_cons]
    rcases hp with rfl | rfl | hp
    · exact .inr (hrest _ List.mem_cons_self)
    · exact .inl (eq_of_position? hd)
    · exact .inr (hrest p (List.mem_cons_of_mem _ hp))
  | case3 => cases h

/-- A dispatch table leads where the offsets of the instruction do. -/
theorem mem_targets_of_dispatchTable? {i : Instr} {cases : List (Value × Nat)} {other : Nat}
    (table : i.dispatchTable? = some (cases, other)) :
    ∀ p ∈ other :: cases.map Prod.snd, (p : Int) ∈ i.targets := by
  intro p hp
  unfold dispatchTable? at table
  split at table
  next =>
    have hmem := mem_targets_of_entries? table p hp
    exact (List.Sublist.filterMap _ (List.tail_sublist _)).subset hmem
  next => cases table

/-- Control goes on to the next instruction, unless a jump or a dispatch leads elsewhere or an exit
leaves, or it goes where an offset leads. -/
theorem successor_cases {i : Instr} {q : Nat} (hq : q ∈ i.successors) :
    q = i.next ∧ (i.opcode.control = none ∨ ∃ kind, i.opcode.control = some (.branch kind)) ∨
      (q : Int) ∈ i.targets := by
  have jump (hq : q ∈ i.jumpTarget?.toList) : (q : Int) ∈ i.targets := by
    rw [Option.mem_toList] at hq
    obtain ⟨t, ht, hp⟩ := Option.bind_eq_some_iff.mp hq
    rw [eq_of_position? hp]
    exact List.mem_of_head? ht
  unfold successors at hq
  split at hq
  next control => exact .inl ⟨List.mem_singleton.mp hq, .inl control⟩
  next => exact .inr (jump hq)
  next kind control =>
    rcases List.mem_cons.mp hq with rfl | hq
    · exact .inl ⟨rfl, .inr ⟨kind, control⟩⟩
    · exact .inr (jump hq)
  next =>
    cases ht : i.dispatchTable? with
    | none => rw [ht] at hq; cases hq
    | some table =>
      rw [ht] at hq
      exact .inr (mem_targets_of_dispatchTable? ht q hq)
  next => cases hq

/-- Where no offset leads back, control goes on. -/
theorem lt_of_mem_successors {i : Instr} (forward : ∀ t ∈ i.targets, (i.position : Int) < t)
    {q : Nat} (hq : q ∈ i.successors) : i.position < q := by
  rcases successor_cases hq with ⟨rfl, -⟩ | target
  · exact i.position_lt_next
  · have := forward _ target
    omega

end Instr

namespace Method

/-- Some path from position 0 comes to the position, and the effects of its instructions add up to
the depth. -/
inductive Reaches (m : Method) : Nat → Int → Prop
  | start : m.Reaches 0 0
  | step {p q : Nat} {depth : Int} {i : Instr} (before : m.Reaches p depth)
      (found : m.instrAt? p = some i) (after : q ∈ i.successors) :
      m.Reaches q (depth - i.effect.1 + i.effect.2)

/-- Paths stay in a set of positions that holds the first one and all that its instructions lead to. -/
theorem Reaches.mem_of_closed {m : Method} {S : List Nat} (zero : 0 ∈ S)
    (closed : ∀ i ∈ m.instrs, i.position ∈ S → ∀ q ∈ i.successors, q ∈ S) {p : Nat} {d : Int}
    (path : m.Reaches p d) : p ∈ S := by
  induction path with
  | start => exact zero
  | @step p q _ i _ found after ih =>
    have position : i.position = p := by simpa using List.find?_some found
    exact closed i (List.mem_of_find?_eq_some found) (position ▸ ih) q after

/-- All jump offsets lead to positions after the jumping instruction. -/
def Forward (m : Method) : Prop := ∀ i ∈ m.instrs, ∀ t ∈ i.targets, (i.position : Int) < t

instance (m : Method) : Decidable m.Forward :=
  inferInstanceAs (Decidable (∀ i ∈ m.instrs, ∀ t ∈ i.targets, (i.position : Int) < t))

/-- The instruction can be executed at this depth: it finds its operands, its results fit, and an
exit finds exactly one value. -/
def Fits (m : Method) (i : Instr) (depth : Int) : Prop :=
  i.effect.1 ≤ depth ∧ depth - i.effect.1 + i.effect.2 ≤ m.stackMax ∧
    ∀ kind, i.opcode.control = some (.exit kind) → depth = 1

/-- All paths that come to an instruction bring the same depth, and the instruction fits it. -/
def Balanced (m : Method) : Prop :=
  ∀ p i, m.instrAt? p = some i → ∀ d, m.Reaches p d →
    m.Fits i d ∧ ∀ d', m.Reaches p d' → d' = d

end Method

end StackFlow
