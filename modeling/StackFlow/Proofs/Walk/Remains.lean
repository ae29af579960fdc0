import StackFlow.Proofs.Walk.Final

/-!
A block read from one of its instructions on: the instructions that are left and the code that comes
from each (`Visit.Remains`). Main statement: every block that was entered can be read so from its
start (`Journal.Reached.remains`).
-/
namespace StackFlow

open IR (Reg Stmt BlockId Func Terminator dests)

/-- From position `p` on, with the next free register `n` and the registers `r` on the stack, the rest
of the block turns into the code. -/
inductive Visit.Remains (m : Method) (x : ExternTable) (t : BlockTable) (trap : Option BlockId)
    (v : Visit) (term : Terminator) : Nat → Nat → List Reg → List Stmt → Prop
  | straight {i : Instr} {n : Nat} {r r' : List Reg} {c code : List Stmt} (mem : i ∈ m.instrs)
      (inside : i.position ≤ v.block.last) (plain : i.opcode.control = none)
      (lowered : Straight x v.opened.max i n r c r')
      (rest : Remains m x t trap v term i.next (n + (dests c).length) r' code) :
      Remains m x t trap v term i.position n r (c ++ code)
  | transfer {i : Instr} {control : Control} {n : Nat} {s : OperandStack} {code : List Stmt}
      (mem : i ∈ m.instrs) (inside : i.position ≤ v.block.last)
      (transfers : i.opcode.control = some control)
      (ending : Ending m x t trap v.block n (some (i, control)) s code term v.edges) :
      Remains m x t trap v term i.position n s.regs code
  | stop {n : Nat} {s : OperandStack} {code : List Stmt}
      (leads : v.block.last + 1 = m.length ∧ t.following? v.block.start = none ∨
        v.block.last + 1 < m.length ∧ t.following? v.block.start = some (v.block.last + 1))
      (ending : Ending m x t trap v.block n none s code term v.edges) :
      Remains m x t trap v term (v.block.last + 1) n s.regs code

namespace Visit.Remains

variable {m : Method} {x : ExternTable} {t : BlockTable} {trap : Option BlockId} {v : Visit}
  {term : Terminator}

/-- Straight instructions in front of what remains. -/
theorem of_straights {is : List Instr} {p q n : Nat} {r r' : List Reg} {c code : List Stmt}
    (spans : Code.Contiguous p is q) (mem : ∀ i ∈ is, i ∈ m.instrs)
    (inside : ∀ i ∈ is, i.position ≤ v.block.last) (plain : ∀ i ∈ is, i.opcode.control = none)
    (lowered : Straights x v.opened.max is n r c r')
    (rest : v.Remains m x t trap term q (n + (dests c).length) r' code) :
    v.Remains m x t trap term p n r (c ++ code) := by
  induction lowered generalizing p with
  | nil =>
    cases spans
    exact rest
  | @cons i is n s t' u c d first more ih =>
    obtain ⟨rfl, spans⟩ := spans
    rw [List.append_assoc]
    apply Remains.straight (mem i List.mem_cons_self) (inside i List.mem_cons_self)
      (plain i List.mem_cons_self) first
    apply ih spans (fun k hk => mem k (List.mem_cons_of_mem i hk))
      (fun k hk => inside k (List.mem_cons_of_mem i hk))
      (fun k hk => plain k (List.mem_cons_of_mem i hk))
    rw [IR.dests_append, List.length_append, ← Nat.add_assoc] at rest
    exact rest

/-- Where no offset leads back, no edge does. -/
theorem forward {p n : Nat} {r : List Reg} {code : List Stmt}
    (h : v.Remains m x t trap term p n r code) (hm : m.Forward) : ∀ e ∈ v.edges, e.source < e.dest := by
  induction h with
  | straight _ _ _ _ _ ih => exact ih
  | transfer mem _ transfers ending =>
    intro e he
    rw [(ending.edge he).1]
    apply Instr.lt_of_mem_successors (hm _ mem)
    rw [← ending.dests_eq transfers]
    exact List.mem_map_of_mem he
  | stop leads ending =>
    intro e he
    have hdest : e.dest ∈ (t.following? v.block.start).toList := by
      rw [← ending.dests_eq_following]
      exact List.mem_map_of_mem he
    rw [(ending.edge he).1]
    rcases leads with ⟨-, hnone⟩ | ⟨-, hsome⟩
    · rw [hnone] at hdest
      cases hdest
    · rw [hsome] at hdest
      rw [List.mem_singleton.mp hdest]
      exact Nat.lt_succ_self _

end Visit.Remains

namespace Journal.Reached

variable {c : Compiler} {x : ExternTable} {j : Journal}

/-- The instructions of a block that was entered lie end to end. -/
theorem contiguous_body (h : j.Reached c x) {v : Visit} (hv : v ∈ j.visits) :
    v.start ≤ v.block.last ∧ Code.Contiguous v.start
      (c.method.instrsIn v.start v.block.last) (v.block.last + 1) := by
  obtain ⟨b, hb, hs, hl, -⟩ := h.linked.exists_block hv
  rw [← hs, ← hl]
  exact ⟨(h.tidy.divides.after hb).1, h.tidy.divides.body hb⟩

theorem remains (h : j.Reached c x) {v : Visit} (hv : v ∈ j.visits) :
    ∃ code, j.func.code v.handle = v.opened.phis (j.incoming v.start) ++ code ∧
      v.Remains c.method x j.walk.table j.walk.trap (j.func.exit v.handle) v.start v.next
        v.opened.regs code := by
  obtain ⟨code, hcode, straight, ending, s, rfl, hmax, hstraight, hending⟩ :=
    h.coded.filled v hv
  obtain ⟨-, hbody⟩ := h.contiguous_body hv
  refine ⟨straight ++ ending, hcode, ?_⟩
  have mem : ∀ i ∈ c.method.instrsIn v.start v.block.last, i ∈ c.method.instrs :=
    fun _ => Method.mem_of_mem_instrsIn
  have inside : ∀ i ∈ c.method.instrsIn v.start v.block.last, i.position ≤ v.block.last :=
    fun i hi => by simpa using List.mem_takeWhile_imp hi
  have plain : ∀ i ∈ (c.method.instrsIn v.start v.block.last).takeWhile (!·.transfers),
      i.opcode.control = none := by
    intro i hi
    have := List.mem_takeWhile_imp hi
    simpa [Instr.transfers] using this
  have early : ∀ i ∈ (c.method.instrsIn v.start v.block.last).takeWhile (!·.transfers),
      i ∈ c.method.instrsIn v.start v.block.last := fun _ hi => (List.takeWhile_prefix _).subset hi
  rcases Instr.split_at_transfer (c.method.instrsIn v.start v.block.last) with
    ⟨i, control, after, hsplit, hcontrol, hfind⟩ | ⟨hall, hfind⟩
  · rw [hsplit] at hbody
    obtain ⟨q, hspans, hp, -⟩ := Code.Contiguous.append_iff.mp hbody
    rw [hfind] at hending
    have hi : i ∈ c.method.instrsIn v.start v.block.last := by rw [hsplit]; simp
    apply Visit.Remains.of_straights hspans (fun k hk => mem k (early k hk))
      (fun k hk => inside k (early k hk)) plain hstraight
    rw [← hp]
    exact .transfer (mem i hi) (inside i hi) hcontrol hending
  · rw [hfind] at hending
    rw [← hall] at hbody
    apply Visit.Remains.of_straights hbody (fun k hk => mem k (early k hk))
      (fun k hk => inside k (early k hk)) plain hstraight
    refine .stop ?_ hending
    obtain ⟨b, hb, hs, hl, -⟩ := h.linked.exists_block hv
    have hs' : b.start = v.block.start := hs
    rw [← hl, ← hs']
    rcases (h.tidy.divides.after hb).2 with hend | ⟨hlt, -, hnext⟩
    · exact .inl hend
    · exact .inr ⟨hlt, hnext⟩

end Journal.Reached

namespace Journal.Final

variable {c : Compiler} {x : ExternTable} {j : Journal}

theorem contiguous_body (h : j.Final c x) {v : Visit} (hv : v ∈ j.visits) :
    v.start ≤ v.block.last ∧ Code.Contiguous v.start
      (c.method.instrsIn v.start v.block.last) (v.block.last + 1) :=
  h.reached.contiguous_body hv

theorem remains (h : j.Final c x) {v : Visit} (hv : v ∈ j.visits) :
    ∃ code, j.func.code v.handle = v.opened.phis (j.incoming v.start) ++ code ∧
      v.Remains c.method x j.walk.table j.walk.trap (j.func.exit v.handle) v.start v.next
        v.opened.regs code :=
  h.reached.remains hv

end Journal.Final

end StackFlow
