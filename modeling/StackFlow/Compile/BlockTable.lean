import StackFlow.IR.Builder

/-!
The table of a method's basic blocks, by start position, with what compilation knows of each.
-/
namespace StackFlow

open IR (Reg BlockId Builder Func)

structure BasicBlock where
  /-- Position of the first word. -/
  start : Nat
  /-- Position of the last word. -/
  last : Nat
  /-- Block of register code that takes the instructions. -/
  handle : BlockId
  /-- The phi that joins the incoming values, once there is one. -/
  merge : Option Reg := none
  /-- Incoming values that wait for the phi. -/
  pending : List (BlockId × Reg) := []
  compiled : Bool := false
  /-- Whether forward edges bring a value: fixed by the first edge or by entering the block. -/
  carries : Option Bool := none
  deriving DecidableEq, Repr

/-- Number of incoming values, waiting or joined. -/
def BasicBlock.incoming (b : BasicBlock) (f : Func) : Nat :=
  match b.merge with
  | some phi => (f.phiSources? b.handle phi).elim 0 List.length
  | none => b.pending.length

structure BlockTable where
  blocks : List BasicBlock := []
  deriving DecidableEq, Repr

namespace BlockTable

/-- A block for each start, up to the next start or to the end of the code. -/
def allot (length : Nat) : List Nat → Builder → List BasicBlock × Builder
  | [], b => ([], b)
  | start :: rest, b =>
    let (handle, b) := b.newBlock
    let (blocks, b) := allot length rest b
    ({ start, last := rest.head?.getD length - 1, handle } :: blocks, b)

def ofStarts (starts : List Nat) (length : Nat) (b : Builder) : BlockTable × Builder :=
  let (blocks, b) := allot length starts b
  (⟨blocks⟩, b)

/-- Of several blocks with one start the last counts. -/
def block? (t : BlockTable) (start : Nat) : Option BasicBlock :=
  t.blocks.reverse.find? (·.start == start)

def modify (t : BlockTable) (start : Nat) (f : BasicBlock → BasicBlock) : BlockTable :=
  ⟨t.blocks.map fun b => if b.start = start then f b else b⟩

/-- Start of the block after the one that starts at `start`. -/
def following? (t : BlockTable) (start : Nat) : Option Nat := do
  let _ ← t.block? start
  let next ← (t.blocks.reverse.takeWhile (·.start != start)).getLast?
  return next.start

def starts (t : BlockTable) : List Nat := t.blocks.map (·.start)

def compiledStarts (t : BlockTable) : List Nat :=
  (t.blocks.filter (·.compiled)).map (·.start)

/-- Number of blocks that are still to be compiled. -/
def uncompiled (t : BlockTable) : Nat := t.blocks.countP (!·.compiled)

/-- Ranges and handles, a block a line. -/
def text (t : BlockTable) : String :=
  "basic blocks:\n" ++ String.join (t.blocks.map fun b =>
    s!"  {Numeral.dec4 b.start}..={Numeral.dec4 b.last} -> {b.handle.text}\n")

theorem block?_modify_self (t : BlockTable) (start : Nat) {f : BasicBlock → BasicBlock}
    (keep : ∀ b, (f b).start = b.start) :
    (t.modify start f).block? start = (t.block? start).map f := by
  unfold modify block?
  rw [← List.map_reverse]
  induction t.blocks.reverse with
  | nil => rfl
  | cons b bs ih =>
    by_cases h : b.start = start
    · simp [h, keep]
    · simpa [h] using ih

theorem block?_modify_of_ne (t : BlockTable) {start other : Nat} {f : BasicBlock → BasicBlock}
    (keep : ∀ b, (f b).start = b.start) (h : start ≠ other) :
    (t.modify start f).block? other = t.block? other := by
  unfold modify block?
  rw [← List.map_reverse]
  induction t.blocks.reverse with
  | nil => rfl
  | cons b bs ih =>
    by_cases hb : b.start = start
    · simpa [hb, keep, h] using ih
    · by_cases ho : b.start = other <;> simp_all

theorem uncompiled_modify_le (t : BlockTable) (start : Nat) (f : BasicBlock → BasicBlock)
    (keep : ∀ b, b.compiled = true → (f b).compiled = true) :
    (t.modify start f).uncompiled ≤ t.uncompiled := by
  unfold uncompiled modify
  rw [List.countP_map]
  refine List.countP_mono_left fun b _ h => ?_
  by_cases hs : b.start = start
  · have h' : (f b).compiled = false := by simpa [hs] using h
    have : b.compiled ≠ true := fun hb => by simp [keep b hb] at h'
    simpa using this
  · simpa [hs] using h

theorem of_block?_eq_some {t : BlockTable} {start : Nat} {b : BasicBlock}
    (found : t.block? start = some b) : b ∈ t.blocks ∧ b.start = start :=
  ⟨by simpa using List.mem_of_find?_eq_some found, by simpa using List.find?_some found⟩

theorem uncompiled_modify_lt {t : BlockTable} {start : Nat} {b : BasicBlock}
    {f : BasicBlock → BasicBlock} (found : t.block? start = some b) (fresh : b.compiled = false)
    (done : ∀ b, (f b).compiled = true) : (t.modify start f).uncompiled < t.uncompiled := by
  obtain ⟨hb, hs⟩ := of_block?_eq_some found
  have key : ∀ l : List BasicBlock, b ∈ l →
      (l.map fun b => if b.start = start then f b else b).countP (!·.compiled) <
        l.countP (!·.compiled) := by
    intro l
    induction l with
    | nil => simp
    | cons x l ih =>
      intro hm
      have tail : (l.map fun b => if b.start = start then f b else b).countP (!·.compiled) ≤
          l.countP (!·.compiled) :=
        uncompiled_modify_le ⟨l⟩ start f fun b _ => done b
      rw [List.map_cons, List.countP_cons, List.countP_cons]
      by_cases hx : x.start = start
      · rw [if_pos hx, done x]
        by_cases hxb : x.compiled = true
        · have hl : b ∈ l := by
            rcases List.mem_cons.1 hm with h | h
            · subst h; simp [fresh] at hxb
            · exact h
          have := ih hl
          simp only [hxb, Bool.not_true, Bool.false_eq_true, if_false]; omega
        · rw [Bool.not_eq_true] at hxb
          simp only [hxb, Bool.not_true, Bool.not_false, Bool.false_eq_true, if_false, if_true]
          omega
      · rw [if_neg hx]
        have hl : b ∈ l := by
          rcases List.mem_cons.1 hm with h | h
          · subst h; exact absurd hs hx
          · exact h
        have := ih hl
        omega
  exact key _ hb

end BlockTable

end StackFlow
