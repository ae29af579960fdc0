import Mathlib.Logic.Function.Iterate
import StackFlow.IR.Exec
import StackFlow.Proofs.Code.Verified
import StackFlow.Proofs.Code.Paths

/-!
Execution of a method's code on an operand stack, one instruction after the other.
-/
namespace StackFlow

open IR (Calls Outcome)

/-- The branch is taken on that value. -/
def BranchKind.taken : BranchKind → Value → Bool
  | ifTrue, v => v.truthy
  | unlessTrue, v => !v.truthy
  | ifNil, v => v.isNil

/-- The state of a call between two instructions. -/
structure Frame (σ : Type) where
  position : Nat
  /-- The top value first. -/
  stack : List Value
  locals : List Value
  host : σ

/-- How far a call has come. -/
inductive Status (σ : Type)
  | running (f : Frame σ)
  | ended (outcome : Outcome) (host : σ)
  /-- An instruction did not find what it needs, or its result had no room. -/
  | stuck

variable {σ : Type}

def Status.host? : Status σ → Option σ
  | running f => some f.host
  | ended _ host => some host
  | stuck => none

namespace Frame

variable (calls : Calls σ) (receiver : Value) (i : Instr) (f : Frame σ)

/-- Sends a method to the value below its arguments. -/
def send (selector : Word) (count : Nat) : Option (Frame σ) :=
  match f.stack.drop count with
  | [] => none
  | target :: below =>
    let args := (f.stack.take count).reverse
    let (w, host) := calls (ExternTable.funcallName count)
      (target.bits :: selector :: args.map Value.bits) f.host
    some { f with stack := ⟨w⟩ :: below, host }

def push (v : Value) : Frame σ := { f with stack := v :: f.stack }

/-- Executes an instruction that transfers no control. -/
def straight : Option (Frame σ) :=
  match i.opcode with
  | .nop | .trace => some f
  | .putNil => some (f.push .nil)
  | .putSelf => some (f.push receiver)
  | .putObject => some (f.push ⟨i.word 0⟩)
  | .putZero => some (f.push (.fixnum 0))
  | .putOne => some (f.push (.fixnum 1))
  | .getLocal => (f.locals[(i.word 0).toNat]?).map f.push
  | .setLocal =>
    match f.stack with
    | v :: s =>
      if (i.word 0).toNat < f.locals.length then
        some { f with stack := s, locals := f.locals.set (i.word 0).toNat v }
      else none
    | _ => none
  | .pop =>
    match f.stack with
    | _ :: s => some { f with stack := s }
    | _ => none
  | .dup =>
    match f.stack with
    | v :: s => some { f with stack := v :: v :: s }
    | _ => none
  | .swap =>
    match f.stack with
    | v :: u :: s => some { f with stack := u :: v :: s }
    | _ => none
  | .send => f.send calls (i.word 0) (i.word 1).toNat
  | op => op.selector?.bind (f.send calls · 1)

/-- Executes an instruction that transfers control. -/
def transfer : Control → Status σ
  | .jump =>
    match i.jumpTarget? with
    | some dest => .running { f with position := dest }
    | none => .stuck
  | .branch kind =>
    match f.stack, i.jumpTarget? with
    | v :: s, some dest =>
      .running { f with stack := s, position := if kind.taken v then dest else i.next }
    | _, _ => .stuck
  | .dispatch =>
    match f.stack, i.dispatchTable? with
    | key :: s, some (cases, other) =>
      .running { f with stack := s, position := (cases.lookup key).getD other }
    | _, _ => .stuck
  | .exit .leave =>
    match f.stack with
    | [v] => .ended (.returned v.bits) f.host
    | _ => .stuck
  | .exit .throw =>
    match f.stack with
    | [v] =>
      let (w, host) := calls ExternTable.throwName [i.word 0, v.bits] f.host
      .ended (.returned w) host
    | _ => .stuck

variable {calls receiver i}

theorem straight_of_constant {w : Word} (h : i.constant? = some w) :
    f.straight calls receiver i = some (f.push ⟨w⟩) := by
  unfold Instr.constant? at h
  unfold straight
  cases hop : i.opcode <;> rw [hop] at h <;> cases h <;> rfl

theorem straight_of_sends {selector : Word} {count : Nat} (h : i.sends? = some (selector, count)) :
    f.straight calls receiver i = f.send calls selector count := by
  unfold Instr.sends? at h
  unfold straight
  cases hop : i.opcode <;> rw [hop] at h <;> cases h <;> rfl

variable {f}

theorem transfer_jump {dest : Nat} (leads : i.jumpTarget? = some dest) :
    f.transfer calls i .jump = .running { f with position := dest } := by
  unfold transfer
  rw [leads]

theorem transfer_branch {kind : BranchKind} {v : Value} {s : List Value} {dest : Nat}
    (top : f.stack = v :: s) (leads : i.jumpTarget? = some dest) :
    f.transfer calls i (.branch kind) =
      .running { f with stack := s, position := if kind.taken v then dest else i.next } := by
  unfold transfer
  rw [top, leads]

theorem transfer_dispatch {key : Value} {s : List Value} {cases : List (Value × Nat)} {other : Nat}
    (top : f.stack = key :: s) (table : i.dispatchTable? = some (cases, other)) :
    f.transfer calls i .dispatch =
      .running { f with stack := s, position := (cases.lookup key).getD other } := by
  unfold transfer
  rw [top, table]

theorem transfer_leave {v : Value} (only : f.stack = [v]) :
    f.transfer calls i (.exit .leave) = .ended (.returned v.bits) f.host := by
  unfold transfer
  rw [only]

theorem transfer_throw {v : Value} (only : f.stack = [v]) :
    f.transfer calls i (.exit .throw) =
      .ended (.returned (calls ExternTable.throwName [i.word 0, v.bits] f.host).1)
        (calls ExternTable.throwName [i.word 0, v.bits] f.host).2 := by
  unfold transfer
  rw [only]

end Frame

namespace Method

variable (m : Method) (calls : Calls σ) (receiver : Value)

/-- Executes one instruction; past the end of the code there is a trap. -/
def step (f : Frame σ) : Status σ :=
  if m.length ≤ f.position then .ended .trapped f.host
  else
    match m.instrAt? f.position with
    | none => .stuck
    | some i =>
      match i.opcode.control with
      | some control => f.transfer calls i control
      | none =>
        match f.straight calls receiver i with
        | none => .stuck
        | some f =>
          if f.stack.length ≤ m.stackMax then .running { f with position := i.next } else .stuck

def advance : Status σ → Status σ
  | .running f => m.step calls receiver f
  | s => s

/-- The frame of a call: the first locals hold the arguments and all others `nil`. -/
def frame (args : List Value) (host : σ) : Frame σ :=
  ⟨0, [], args ++ List.replicate (m.locals - m.params) .nil, host⟩

/-- What a call has come to after so many instructions. -/
def after (args : List Value) (host : σ) (n : Nat) : Status σ :=
  (m.advance calls receiver)^[n] (.running (m.frame args host))

variable {m calls receiver}

theorem advance_iterate_ended (n : Nat) (o : Outcome) (host : σ) :
    (m.advance calls receiver)^[n] (.ended o host) = .ended o host :=
  Function.iterate_fixed rfl n

theorem advance_iterate_stuck (n : Nat) :
    (m.advance calls receiver)^[n] (.stuck : Status σ) = .stuck :=
  Function.iterate_fixed rfl n

theorem after_add (args : List Value) (host : σ) (n k : Nat) :
    m.after calls receiver args host (n + k) =
      (m.advance calls receiver)^[k] (m.after calls receiver args host n) := by
  unfold after
  rw [Nat.add_comm, Function.iterate_add_apply]

/-- A call that has ended stays so. -/
theorem after_of_le {args : List Value} {host : σ} {n k : Nat} (hle : n ≤ k) {s : Status σ}
    (h : m.after calls receiver args host n = s) (hs : ∀ f, s ≠ .running f) :
    m.after calls receiver args host k = s := by
  obtain ⟨d, rfl⟩ := Nat.exists_eq_add_of_le hle
  rw [after_add, h]
  cases s with
  | running f => exact absurd rfl (hs f)
  | ended o host => exact advance_iterate_ended d o host
  | stuck => exact advance_iterate_stuck d

theorem step_of_length_le {f : Frame σ} (h : m.length ≤ f.position) :
    m.step calls receiver f = .ended .trapped f.host := if_pos h

/-- The instruction at a position of the frame is the next one to execute. -/
theorem step_eq {i : Instr} (hi : i ∈ m.instrs) {f : Frame σ} (hp : f.position = i.position) :
    m.step calls receiver f =
      match i.opcode.control with
      | some control => f.transfer calls i control
      | none =>
        match f.straight calls receiver i with
        | none => .stuck
        | some f =>
          if f.stack.length ≤ m.stackMax then .running { f with position := i.next }
          else .stuck := by
  have hlt : i.position < m.length :=
    Nat.lt_of_lt_of_le i.position_lt_next (m.contiguous.bounds hi).2
  have hfound : m.instrAt? f.position = some i := instrAt?_eq_some_iff.mpr ⟨hi, hp.symm⟩
  unfold step
  rw [if_neg (by omega), hfound]

end Method

end StackFlow
