import Mathlib.Logic.Function.Iterate
import StackFlow.IR.Exec
import StackFlow.Proofs.IR.Append

/-!
Execution of register code: what a block leaves alone, what the copies at its end do, and the blocks
that an execution goes through.
-/
namespace StackFlow.IR

variable {σ : Type}

namespace Machine

/-- A register that no copy writes keeps its value. -/
theorem get_copy_of_ne (m : Machine σ) {copies : List (Reg × Reg)} {q : Reg}
    (h : ∀ r, (q, r) ∉ copies) : (m.copy copies).get q = m.get q := by
  have fold : ∀ (l : List (Reg × Word)) (k : Machine σ), (∀ w, (q, w) ∉ l) →
      (l.foldl (fun k p => k.set p.1 p.2) k).get q = k.get q := by
    intro l
    induction l with
    | nil => exact fun _ _ => rfl
    | cons p l ih =>
      intro k hl
      obtain ⟨d, w⟩ := p
      rw [List.foldl_cons, ih _ fun w hw => hl w (List.mem_cons_of_mem _ hw), get_set, if_neg]
      rintro rfl
      exact hl w List.mem_cons_self
  apply fold
  intro w hw
  obtain ⟨⟨d, r⟩, hp, he⟩ := List.mem_map.mp hw
  cases he
  exact h r hp

/-- A register with one source takes the value that the source had before. -/
theorem get_copy_of_mem (m : Machine σ) {copies : List (Reg × Reg)} {q r : Reg}
    (h : (q, r) ∈ copies) (unique : ∀ r', (q, r') ∈ copies → m.get r' = m.get r) :
    (m.copy copies).get q = m.get r := by
  have fold : ∀ (l : List (Reg × Word)) (k : Machine σ), (∀ w, (q, w) ∈ l → w = m.get r) →
      (q, m.get r) ∈ l ∨ k.get q = m.get r →
      (l.foldl (fun k p => k.set p.1 p.2) k).get q = m.get r := by
    intro l
    induction l with
    | nil =>
      intro k _ hk
      exact hk.resolve_left (by simp)
    | cons p l ih =>
      intro k hl hk
      obtain ⟨d, w⟩ := p
      rw [List.foldl_cons]
      apply ih _ fun w hw => hl w (List.mem_cons_of_mem _ hw)
      by_cases hd : q = d
      · right
        subst hd
        rw [get_set, if_pos rfl]
        exact hl w List.mem_cons_self
      · rcases hk with hk | hk
        · left
          rcases List.mem_cons.mp hk with he | hk
          · cases he
            exact absurd rfl hd
          · exact hk
        · right
          rw [get_set, if_neg hd]
          exact hk
  apply fold
  · intro w hw
    obtain ⟨⟨d, r'⟩, hp, he⟩ := List.mem_map.mp hw
    cases he
    exact unique r' hp
  · exact .inl (List.mem_map.mpr ⟨_, h, rfl⟩)

theorem copy_frame (m : Machine σ) (copies : List (Reg × Reg)) :
    (m.copy copies).locals = m.locals ∧ (m.copy copies).host = m.host := by
  have fold : ∀ (l : List (Reg × Word)) (k : Machine σ),
      (l.foldl (fun k p => k.set p.1 p.2) k).locals = k.locals ∧
        (l.foldl (fun k p => k.set p.1 p.2) k).host = k.host := by
    intro l
    induction l with
    | nil => exact fun _ => ⟨rfl, rfl⟩
    | cons p l ih => exact fun k => ih _
  exact fold _ _

end Machine

variable {calls : Calls σ} {input : Input}

/-- Executes the statements in their order. -/
def execAll (calls : Calls σ) (input : Input) (code : List Stmt) (m : Machine σ) : Machine σ :=
  code.foldl (fun m s => s.exec calls input m) m

@[simp] theorem execAll_nil (m : Machine σ) : execAll calls input [] m = m := rfl

@[simp] theorem execAll_cons (s : Stmt) (code : List Stmt) (m : Machine σ) :
    execAll calls input (s :: code) m = execAll calls input code (s.exec calls input m) := rfl

@[simp] theorem execAll_append (c d : List Stmt) (m : Machine σ) :
    execAll calls input (c ++ d) m = execAll calls input d (execAll calls input c m) :=
  List.foldl_append

theorem Stmt.get_exec_of_ne {s : Stmt} {q : Reg} (h : s.dest? ≠ some q) (m : Machine σ) :
    (s.exec calls input m).get q = m.get q := by
  cases s <;> simp only [dest?, ne_eq, Option.some.injEq] at h <;> unfold exec
  case storeLocal => rfl
  case phi => rfl
  case call d callee args =>
    rw [Machine.get_set, if_neg (Ne.symm h)]
    rfl
  all_goals rw [Machine.get_set, if_neg (Ne.symm h)]

/-- Code leaves the registers alone that it does not define. -/
theorem get_execAll_of_not_mem {code : List Stmt} {q : Reg} (h : q ∉ dests code) (m : Machine σ) :
    (execAll calls input code m).get q = m.get q := by
  induction code generalizing m with
  | nil => rfl
  | cons s code ih =>
    have hs : s.dest? ≠ some q := by
      intro hd
      exact h (List.mem_filterMap.mpr ⟨s, List.mem_cons_self, hd⟩)
    have hcode : q ∉ dests code := by
      intro hm
      obtain ⟨t, ht, hd⟩ := List.mem_filterMap.mp hm
      exact h (List.mem_filterMap.mpr ⟨t, List.mem_cons_of_mem s ht, hd⟩)
    rw [execAll_cons, ih hcode, Stmt.get_exec_of_ne hs]

/-- A phi takes its value at the end of the block before, not where it stands. -/
theorem execAll_phis {code : List Stmt} (h : ∀ s ∈ code, s.isPhi = true) (m : Machine σ) :
    execAll calls input code m = m := by
  induction code with
  | nil => rfl
  | cons s code ih =>
    have hs := h s List.mem_cons_self
    cases s <;> try cases hs
    exact ih fun t ht => h t (List.mem_cons_of_mem _ ht)

namespace Func

variable (f : Func)

theorem step_eq (b : BlockId) (m : Machine σ) :
    f.step calls input b m =
      let done := (execAll calls input (f.code b) m).copy (f.copies b)
      ((f.exit b).next done.get, done) := rfl

theorem mem_copies {p : BlockId} {d r : Reg} :
    (d, r) ∈ f.copies p ↔ ∃ b, ∃ s ∈ f.code b, (d, r) ∈ s.copies p := by
  unfold copies
  rw [List.mem_flatMap]
  constructor
  · rintro ⟨s, hs, hm⟩
    obtain ⟨b, hb⟩ := mem_stmts.mp hs
    exact ⟨b, s, hb, hm⟩
  · rintro ⟨b, s, hs, hm⟩
    exact ⟨s, mem_stmts.mpr ⟨b, hs⟩, hm⟩

/-- Executes the next block, unless the execution has ended. -/
def advance (calls : Calls σ) (input : Input) : Next × Machine σ → Next × Machine σ
  | (.goto b, m) => f.step calls input b m
  | ended => ended

/-- What the execution has come to after so many blocks: the next block, or how it has ended. -/
def after (calls : Calls σ) (input : Input) (host : σ) (n : Nat) : Next × Machine σ :=
  (f.advance calls input)^[n] (.goto entry, { host })

theorem after_succ (host : σ) (n : Nat) :
    f.after calls input host (n + 1) = f.advance calls input (f.after calls input host n) :=
  Function.iterate_succ_apply' _ _ _

theorem advance_iterate_stop (n : Nat) (o : Outcome) (m : Machine σ) :
    (f.advance calls input)^[n] (.stop o, m) = (.stop o, m) :=
  Function.iterate_fixed rfl n

theorem runFrom_eq_some_iff {fuel : Nat} {b : BlockId} {m : Machine σ} {r : Outcome × σ} :
    f.runFrom calls input fuel b m = some r ↔
      ∃ m', (f.advance calls input)^[fuel] (.goto b, m) = (.stop r.1, m') ∧ m'.host = r.2 := by
  induction fuel generalizing b m with
  | zero =>
    constructor
    · intro h
      cases h
    · rintro ⟨m', h, -⟩
      cases h
  | succ fuel ih =>
    have hadvance : f.advance calls input (.goto b, m) = f.step calls input b m := rfl
    rw [Function.iterate_succ_apply, hadvance, runFrom]
    split
    next b' m₁ hs =>
      rw [hs]
      exact ih
    next o m₁ hs =>
      rw [hs, advance_iterate_stop]
      constructor
      · intro h
        cases h
        exact ⟨m₁, rfl, rfl⟩
      · rintro ⟨m', h, he⟩
        cases h
        rw [he]

/-- A run that ends has come to its end after as many blocks. -/
theorem run_eq_some_iff {host : σ} {fuel : Nat} {r : Outcome × σ} :
    f.run calls input host fuel = some r ↔
      (f.after calls input host fuel).1 = .stop r.1 ∧
        (f.after calls input host fuel).2.host = r.2 := by
  unfold run after
  rw [runFrom_eq_some_iff]
  constructor
  · rintro ⟨m, h, hh⟩
    rw [h]
    exact ⟨rfl, hh⟩
  · rintro ⟨h, hh⟩
    exact ⟨_, Prod.ext h rfl, hh⟩

/-- An execution comes to block `b` with machine `m`. The blocks before stand with the machines at the
ends of their code, the last one first. -/
inductive Executes (f : Func) (calls : Calls σ) (input : Input) (host : σ) :
    List (BlockId × Machine σ) → BlockId → Machine σ → Prop
  | start : Executes f calls input host [] entry { host }
  | step {past : List (BlockId × Machine σ)} {b b' : BlockId} {m m' : Machine σ}
      (before : Executes f calls input host past b m)
      (next : f.step calls input b m = (.goto b', m')) :
      Executes f calls input host ((b, execAll calls input (f.code b) m) :: past) b' m'

variable {f} {host : σ} {past : List (BlockId × Machine σ)} {b : BlockId} {m : Machine σ}

theorem Executes.after_eq (h : f.Executes calls input host past b m) :
    f.after calls input host past.length = (.goto b, m) := by
  induction h with
  | start => rfl
  | step _ next ih =>
    rw [List.length_cons, after_succ, ih]
    exact next

/-- However far an execution has come, it executes a block there or has executed its last one. -/
theorem executes_of_after (n : Nat) :
    (∃ past b m, f.Executes calls input host past b m ∧
      f.after calls input host n = (.goto b, m)) ∨
    ∃ past b m, f.Executes calls input host past b m ∧ ∃ o,
      (f.step calls input b m).1 = .stop o ∧ f.after calls input host n = f.step calls input b m := by
  induction n with
  | zero => exact .inl ⟨_, _, _, .start, rfl⟩
  | succ n ih =>
    rw [after_succ]
    rcases ih with ⟨past, b, m, hexec, hafter⟩ | ⟨past, b, m, hexec, o, hstop, hafter⟩
    · rw [hafter]
      cases hs : f.step calls input b m with
      | mk next m' =>
        cases next with
        | goto b' => exact .inl ⟨_, _, _, .step hexec hs, hs⟩
        | stop o => exact .inr ⟨past, b, m, hexec, o, congrArg Prod.fst hs, rfl⟩
    · refine .inr ⟨past, b, m, hexec, o, hstop, ?_⟩
      rw [hafter]
      generalize f.step calls input b m = p at hstop
      obtain ⟨next, m'⟩ := p
      cases hstop
      rfl

/-- An execution has one last block. -/
theorem Executes.last_unique (h : f.Executes calls input host past b m) {o : Outcome}
    (stops : (f.step calls input b m).1 = .stop o) {past' : List (BlockId × Machine σ)} {b' : BlockId}
    {m' : Machine σ} (h' : f.Executes calls input host past' b' m') {o' : Outcome}
    (stops' : (f.step calls input b' m').1 = .stop o') : b = b' ∧ m = m' := by
  -- after its last block an execution goes to no block any more
  have early {p q : List (BlockId × Machine σ)} {b b' : BlockId} {m m' : Machine σ} {o : Outcome}
      (h : f.Executes calls input host p b m) (stops : (f.step calls input b m).1 = .stop o)
      (h' : f.Executes calls input host q b' m') : q.length ≤ p.length := by
    by_contra hlt
    obtain ⟨d, hd⟩ := Nat.exists_eq_add_of_lt (Nat.lt_of_not_le hlt)
    have hafter := h'.after_eq
    have hstop : f.after calls input host (p.length + 1) = f.step calls input b m := by
      rw [after_succ, h.after_eq]
      rfl
    have hadd : f.after calls input host q.length =
        (f.advance calls input)^[d] (f.after calls input host (p.length + 1)) := by
      unfold after
      rw [← Function.iterate_add_apply]
      congr 1
      omega
    rw [hadd, hstop, show f.step calls input b m = (.stop o, _) from Prod.ext stops rfl,
      advance_iterate_stop] at hafter
    cases hafter
  have hlen := Nat.le_antisymm (early h' stops' h) (early h stops h')
  have hafter := h.after_eq
  rw [hlen, h'.after_eq] at hafter
  cases hafter
  exact ⟨rfl, rfl⟩

end Func

/-- The value that the last of the blocks has brought from which there is a source, 0 if none has. -/
def brought (sources : List (BlockId × Reg)) : List (BlockId × Machine σ) → Word
  | [] => 0
  | (b, m) :: past =>
    match sources.lookup b with
    | some r => m.get r
    | none => brought sources past

end StackFlow.IR
