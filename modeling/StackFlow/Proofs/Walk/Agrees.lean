import StackFlow.Proofs.Walk.Final

/-!
Compilations in which every edge leaves its values in the registers that the block at its other end
was compiled for (`Journal.Agrees`). Main statement: the copies at the end of a block bring the stack
of each edge to the registers of the block that it leads to, and change nothing else that is on a
stack there (`Journal.Final.brings`).
-/
namespace StackFlow

open IR (Reg Machine dests)

namespace Journal

/-- A forward edge leaves below its top the stack with which its block was entered, and a backward
edge leaves the stack just after entry. -/
def Agrees (j : Journal) : Prop :=
  ∀ e ∈ j.passed, ∀ v ∈ j.visits, v.start = e.dest →
    if e.source < e.dest then e.stack.dropTop.regs = v.entry.regs
    else e.stack.regs = v.opened.regs

instance (j : Journal) : Decidable j.Agrees :=
  inferInstanceAs (Decidable (∀ e ∈ j.passed, ∀ v ∈ j.visits, v.start = e.dest →
    if e.source < e.dest then e.stack.dropTop.regs = v.entry.regs
    else e.stack.regs = v.opened.regs))

namespace Final

variable {c : Compiler} {x : ExternTable} {j : Journal}

/-- The registers that come along the edge were there before those of the block that it enters. -/
theorem via_below (h : j.Final c x) {v : Visit} (hv : v ∈ j.visits) {e : Edge} (via : v.Via e) :
    ∀ r ∈ e.stack.regs, r.index < v.first := by
  intro r hr
  rcases h.entered hv with begins | ⟨u, hu, e', he', via', hlimit⟩
  · have hnone := via.via
    rw [begins.via] at hnone
    cases hnone
  · obtain rfl : e = e' := Option.some.inj (via.via.symm.trans via'.via)
    have hnext : u.next ≤ u.limit j.func := by
      obtain ⟨code, hcode, -⟩ := h.reached.coded.filled u hu
      unfold Visit.limit Visit.next
      rw [hcode, IR.dests_append, List.length_append, OperandStack.length_dests_phis]
      omega
    rcases h.mem_stack hu he' hr with hm | hm
    · have := h.reached.ranged.below u hu r hm
      omega
    · exact Nat.lt_of_lt_of_le ((h.numbered_code hu).bounds hm).2 hlimit

/-- A block is entered backward with an empty stack: a value on top would stand in a new register. -/
theorem back_empty (h : j.Final c x) (agrees : j.Agrees) {v : Visit} (hv : v ∈ j.visits) {e : Edge}
    (passed : e ∈ j.passed) (via : v.Via e) (backward : e.dest ≤ e.source) : e.stack.regs = [] := by
  have hagree := agrees e passed v hv via.start
  rw [if_neg (Nat.not_lt.mpr backward), via.opened] at hagree
  cases hregs : e.stack.regs with
  | nil => rfl
  | cons top below =>
    simp only [OperandStack.top?, hregs, List.head?_cons, Option.toList_some, List.map_cons,
      List.map_nil, List.tail_cons, List.singleton_append, List.cons.injEq] at hagree
    have hlt := h.via_below hv via top (by simp [hregs])
    rw [hagree.1] at hlt
    exact absurd hlt (Nat.lt_irrefl _)

theorem via_entry (h : j.Final c x) (agrees : j.Agrees) {v : Visit} (hv : v ∈ j.visits) {e : Edge}
    (passed : e ∈ j.passed) (via : v.Via e) : v.entry.regs = e.stack.regs.tail := by
  rw [via.entry]
  rcases Nat.lt_or_ge e.source e.dest with hlt | hge
  · rw [e.entry_forward hlt]
    rfl
  · rw [e.entry_backward hge, h.back_empty agrees hv passed via hge]
    rfl

/-- On entry of a block its phi lies on the stack that it was entered with, unless there is none. -/
theorem opened_eq (h : j.Final c x) (agrees : j.Agrees) {v : Visit} (hv : v ∈ j.visits) :
    v.opened.regs = [] ∨ v.opened.regs = ⟨v.first⟩ :: v.entry.regs := by
  rcases h.entered hv with begins | ⟨u, hu, e, he, via, -⟩
  · left
    rw [begins.opened]
  · rw [h.via_entry agrees hv (h.edge_passed hu he) via, via.opened]
    cases hregs : e.stack.regs with
    | nil => simp [OperandStack.top?, hregs]
    | cons top below => simp [OperandStack.top?, hregs]

/-- What is on the stack on entry of a block comes from there or from an earlier position. -/
theorem exists_home (h : j.Final c x) (agrees : j.Agrees) : ∀ v ∈ j.visits, ∀ q ∈ v.opened.regs,
    ∃ w ∈ j.visits, w.start ≤ v.start ∧ q ∈ dests (j.func.code w.handle) := by
  apply h.reached.linked.visit_induction (P := fun v => ∀ q ∈ v.opened.regs,
    ∃ w ∈ j.visits, w.start ≤ v.start ∧ q ∈ dests (j.func.code w.handle))
  · intro v _ begins q hq
    rw [begins.opened] at hq
    cases hq
  · intro u hu e he passed v hv via ih q hq
    rcases h.opened_eq agrees hv with hnil | hopened
    · rw [hnil] at hq
      cases hq
    rw [hopened] at hq
    rcases List.mem_cons.mp hq with rfl | hq
    · exact ⟨v, hv, Nat.le_refl _, h.mem_dests_phi hv (by simp [OperandStack.top?, hopened])⟩
    rw [h.via_entry agrees hv passed via] at hq
    have hstack := List.mem_of_mem_tail hq
    have hforward : e.source < e.dest := by
      apply Nat.lt_of_not_le
      intro hback
      rw [h.back_empty agrees hv passed via hback] at hstack
      cases hstack
    have hstart : u.start ≤ v.start := by
      have := h.start_le_source hu he
      rw [via.start]
      omega
    rcases h.mem_stack hu he hstack with hm | hm
    · obtain ⟨w, hw, hle, hq⟩ := ih q hm
      exact ⟨w, hw, Nat.le_trans hle hstart, hq⟩
    · exact ⟨u, hu, hstart, hm⟩

variable {σ : Type}

/-- The copies at the end of a block write to phis at later positions only. -/
theorem kept (h : j.Final c x) (agrees : j.Agrees) {u : Visit} (hu : u ∈ j.visits) {q : Reg}
    (hq : q ∈ u.opened.regs ∨ q ∈ dests (j.func.code u.handle)) (k : Machine σ) :
    (k.copy (j.func.copies u.handle)).get q = k.get q := by
  apply Machine.get_copy_of_ne
  intro r hr
  obtain ⟨e, he, hlt, -, v, hv, hs, hd⟩ := (h.mem_copies_handle hu).mp hr
  have hsource := h.start_le_source hu he
  have hhome : ∃ w ∈ j.visits, w.start ≤ u.start ∧ q ∈ dests (j.func.code w.handle) := by
    rcases hq with hq | hq
    · exact h.exists_home agrees u hu q hq
    · exact ⟨u, hu, Nat.le_refl _, hq⟩
  obtain ⟨w, hw, hle, hqw⟩ := hhome
  obtain rfl := h.eq_of_mem_dests hw hv hqw (h.mem_dests_phi hv hd)
  omega

/-- After the copies the registers of the block that an edge leads to hold the stack of the edge. -/
theorem brings (h : j.Final c x) (agrees : j.Agrees) {u v : Visit} (hu : u ∈ j.visits) {e : Edge}
    (he : e ∈ u.edges) (hv : v ∈ j.visits) (hs : v.start = e.dest) (k : Machine σ) :
    v.opened.regs.map (k.copy (j.func.copies u.handle)).get = e.stack.regs.map k.get := by
  have hpassed := h.edge_passed hu he
  have hagree := agrees e hpassed v hv hs
  have hkept : ∀ q ∈ e.stack.regs, (k.copy (j.func.copies u.handle)).get q = k.get q :=
    fun q hq => h.kept agrees hu (h.mem_stack hu he hq) k
  by_cases hlt : e.source < e.dest
  · rw [if_pos hlt] at hagree
    have hcarried := h.reached.linked.carried e hpassed hlt v hv hs
    cases hregs : e.stack.regs with
    | nil =>
      rcases h.opened_eq agrees hv with hnil | hopened
      · rw [hnil]
        rfl
      · simp [OperandStack.top?, hregs, hopened] at hcarried
    | cons top below =>
      rcases h.opened_eq agrees hv with hnil | hopened
      · simp [OperandStack.top?, hregs, hnil] at hcarried
      have hentry : v.entry.regs = below := by
        rw [← hagree]
        simp [OperandStack.dropTop, hregs]
      have htop : e.stack.top? = some top := by simp [OperandStack.top?, hregs]
      have hphi : v.opened.top? = some ⟨v.first⟩ := by simp [OperandStack.top?, hopened]
      have hcopy : (k.copy (j.func.copies u.handle)).get ⟨v.first⟩ = k.get top := by
        apply Machine.get_copy_of_mem
        · exact (h.mem_copies_handle hu).mpr ⟨e, he, hlt, htop, v, hv, hs, hphi⟩
        · intro r hr
          obtain ⟨e', he', -, htop', -⟩ := (h.mem_copies_handle hu).mp hr
          obtain ⟨code, -, hlaid⟩ := h.reached.coded.filled u hu
          rw [(hlaid.edge_unique he' he).2, htop] at htop'
          rw [Option.some.inj htop']
      rw [hopened, hentry, List.map_cons, List.map_cons, hcopy]
      congr 1
      apply List.map_congr_left
      intro q hq
      exact hkept q (by simp [hregs, hq])
  · rw [if_neg hlt] at hagree
    rw [← hagree]
    exact List.map_congr_left hkept

end Final

end Journal

end StackFlow
