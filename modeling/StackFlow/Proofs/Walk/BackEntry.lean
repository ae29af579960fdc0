import Mathlib
import StackFlow.Proofs.Walk.Final

/-!
What a phi holds in an execution: the value that the last of the blocks executed before has brought
that are among its sources. A block that was first entered along a backward edge has a phi of which
the block at the other end is no source, so it takes an older value for the one on top of its stack.
Main statement: `back_entry_top`.
-/
namespace StackFlow

open IR (Reg Stmt BlockId Func Terminator Machine Calls Input dests brought execAll)

namespace Journal.Final

variable {c : Compiler} {x : ExternTable} {j : Journal} {σ : Type} {calls : Calls σ} {input : Input}

/-- No code changes a phi. -/
theorem get_phi_execAll (h : j.Final c x) {v : Visit} (hv : v ∈ j.visits) {phi : Reg}
    (hphi : v.opened.top? = some phi) (b : BlockId) (m : Machine σ) :
    (execAll calls input (j.func.code b) m).get phi = m.get phi := by
  have hown := h.mem_dests_phi hv hphi
  by_cases hb : b = v.handle
  · subst hb
    obtain ⟨code, hcode, hlaid⟩ := h.reached.coded.filled v hv
    rw [hcode, IR.execAll_append, IR.execAll_phis (v.opened.phis_isPhi _)]
    apply IR.get_execAll_of_not_mem
    intro hm
    have hbound := (hlaid.numbered.bounds hm).1
    have htop := h.reached.linked.top?_eq hv
    rw [hphi] at htop
    cases htop.resolve_left (by simp)
    have hnext : v.next = v.first + 1 := by
      unfold Visit.next
      rw [hphi]
      rfl
    dsimp only at hbound
    omega
  · apply IR.get_execAll_of_not_mem
    intro hm
    by_cases hentry : b = Func.entry
    · rw [hentry, h.reached.coded.entry, Lowering.dests_localsCode] at hm
      obtain ⟨i, hi, rfl⟩ := List.mem_map.mp hm
      have hlow := h.reached.ranged.low v hv
      have hbound := ((h.numbered_code hv).bounds hown).1
      have := List.mem_range.mp hi
      dsimp only at hbound
      omega
    · by_cases hvisit : ∃ u ∈ j.visits, u.handle = b
      · obtain ⟨u, hu, rfl⟩ := hvisit
        exact hb (congrArg _ (h.eq_of_mem_dests hu hv hm hown))
      · rw [h.reached.coded.elsewhere b hentry fun u hu he => hvisit ⟨u, hu, he⟩] at hm
        cases hm

/-- A phi holds the value that was brought to it last. -/
theorem get_phi (h : j.Final c x) {v : Visit} (hv : v ∈ j.visits) {phi : Reg}
    (hphi : v.opened.top? = some phi) {host : σ} {past : List (BlockId × Machine σ)} {b : BlockId}
    {m : Machine σ} (he : j.func.Executes calls input host past b m) :
    m.get phi = brought (j.incoming v.start) past := by
  induction he with
  | start => exact IR.Store.get_empty _
  | @step past b b' m m' before next ih =>
    have hm' : m' = (execAll calls input (j.func.code b) m).copy (j.func.copies b) :=
      (congrArg Prod.snd next).symm
    have hcode : (execAll calls input (j.func.code b) m).get phi = m.get phi :=
      h.get_phi_execAll hv hphi b m
    have hsource {r : Reg} (hr : (phi, r) ∈ j.func.copies b) : (b, r) ∈ j.incoming v.start := by
      obtain ⟨u, hu, hd, hin⟩ := h.mem_copies.mp hr
      have : u = v := h.eq_of_mem_dests hu hv (h.mem_dests_phi hu hd) (h.mem_dests_phi hv hphi)
      rw [← this]
      exact hin
    rw [hm']
    unfold brought
    cases hl : (j.incoming v.start).lookup b with
    | some r =>
      obtain ⟨l₁, l₂, hsplit, -⟩ := List.lookup_eq_some_iff.mp hl
      have hin : (b, r) ∈ j.incoming v.start := by rw [hsplit]; simp
      apply Machine.get_copy_of_mem
      · exact h.mem_copies.mpr ⟨v, hv, hphi, hin⟩
      · intro r' hr'
        rw [h.incoming_unique (hsource hr') hin]
    | none =>
      dsimp only
      rw [Machine.get_copy_of_ne, hcode, ih]
      intro r hr
      have hne := List.lookup_eq_none_iff.mp hl _ (hsource hr)
      simp at hne

end Journal.Final

/-- A block that was first entered along a backward edge with a value on the stack: the registers below
the top are those of the block at the other end, but the top is a phi of which that block is no
source. When control comes along the edge, the phi holds what a block with a forward edge brought last,
or 0; the value on top of the stack survives exactly if it is the same. -/
theorem back_entry_top (c : Compiler) (x : ExternTable) (k : Compiled)
    (standard : c.lowering = .standard) (accepted : (c.compile x).result = .ok k) :
    ∃ j, c.journal x = .ok j ∧ k = j.compiled ∧ ∀ v ∈ j.visits, ∀ e, v.via = some e →
      e.dest ≤ e.source → ∀ top below, e.stack.regs = top :: below →
        v.opened.regs = ⟨v.first⟩ :: below ∧
        ∀ (σ : Type) (calls : Calls σ) (input : Input) (host : σ)
          (past : List (BlockId × Machine σ)) (last m : Machine σ),
          k.func.Executes calls input host ((e.pred, last) :: past) v.handle m →
            m.get ⟨v.first⟩ = brought (j.incoming v.start) past ∧
            (m.get ⟨v.first⟩ = last.get top ↔
              brought (j.incoming v.start) past = last.get top) := by
  obtain ⟨j, hj, rfl⟩ := Compiler.journal_of_compile accepted
  have h := Journal.final_of_journal standard hj
  refine ⟨j, hj, rfl, ?_⟩
  intro v hv e hvia hback top below hregs
  rcases h.entered hv with begins | ⟨u, hu, e', he', via, -⟩
  · rw [begins.via] at hvia
    cases hvia
  rw [via.via] at hvia
  cases hvia
  have hopened : v.opened.regs = ⟨v.first⟩ :: below := by
    rw [via.opened]
    simp [OperandStack.top?, hregs]
  refine ⟨hopened, ?_⟩
  intro σ calls input host past last m hexec
  have hphi : v.opened.top? = some ⟨v.first⟩ := by simp [OperandStack.top?, hopened]
  have hvalue := h.get_phi hv hphi hexec
  -- all edges of the block at the other end are backward as seen from this one
  have hnone : (j.incoming v.start).lookup e.pred = none := by
    rw [List.lookup_eq_none_iff]
    rintro ⟨b, r⟩ hin
    rw [bne_iff_ne]
    rintro rfl
    obtain ⟨e'', hp, hd, hlt, hpred, -⟩ := Journal.mem_incoming.mp hin
    obtain ⟨code, -, hlaid⟩ := h.reached.coded.filled u hu
    have heu := h.eq_of_pred_eq hu hp (hpred.trans (hlaid.edge_pred he'))
    have hsame := (hlaid.edge_unique heu he').1
    rw [via.start] at hlt
    omega
  unfold brought at hvalue
  rw [hnone] at hvalue
  dsimp only at hvalue
  exact ⟨hvalue, by rw [hvalue]⟩

/-- The block that returns the value comes before the one that pushes it:
`jump M; L: leave; M: putobject 7; jump L`. -/
def upward : Compiler where
  method :=
    { name := "upward"
      code := [25, 1, 23, 4, 15, 25, 18446744073709551611]
      stackMax := 1
      params := 0
      locals := 0
      instrs := [⟨0, .jump, [.offset 1]⟩, ⟨2, .leave, []⟩, ⟨3, .putObject, [.value ⟨15⟩]⟩,
        ⟨5, .jump, [.offset 18446744073709551611]⟩]
      verified := by cbv }
  lowering := .standard

/-- At the end of the block that pushes 7 the top of the stack is 7, and on entry of the other block it
is 0, the bits of `false`. -/
theorem upward_loses_value : ∃ j, upward.journal .standard = .ok j ∧ ∃ v ∈ j.visits, ∃ e top,
    v.via = some e ∧ e.dest ≤ e.source ∧ e.stack.regs = [top] ∧ v.opened.regs = [⟨v.first⟩] ∧
    ∀ (σ : Type) (calls : Calls σ) (host : σ), ∃ past last m,
      j.func.Executes calls ⟨0, []⟩ host ((e.pred, last) :: past) v.handle m ∧
      last.get top = (Value.fixnum 7).bits ∧ m.get ⟨v.first⟩ = Value.false.bits := by
  refine ⟨_, by cbv, _, List.mem_cons_of_mem _ (List.mem_cons_of_mem _ List.mem_cons_self), _, _,
    rfl, by decide, rfl, rfl, ?_⟩
  intro σ calls host
  exact ⟨_, _, _, .step (.step (.step .start rfl) rfl) rfl, by rfl, by rfl⟩

/-- Nothing was brought to its phi before, so the phi does not hold the value on top. -/
theorem upward_top : ∃ k, (upward.compile .standard).result = .ok k ∧
    ∃ j, upward.journal .standard = .ok j ∧ ∃ v ∈ j.visits, ∃ e, v.via = some e ∧
      ∃ top past last m, k.func.Executes (fun _ _ u => (0, u)) ⟨0, []⟩ () ((e.pred, last) :: past)
        v.handle m ∧ e.stack.regs = [top] ∧ m.get ⟨v.first⟩ ≠ last.get top := by
  have concrete : ∃ j, upward.journal .standard = .ok j ∧ ∃ v ∈ j.visits, ∃ e, v.via = some e ∧
      e.dest ≤ e.source ∧ ∃ top past last m, j.func.Executes (fun _ _ u => (0, u)) ⟨0, []⟩ ()
        ((e.pred, last) :: past) v.handle m ∧ e.stack.regs = [top] ∧
        brought (j.incoming v.start) past ≠ last.get top := by
    refine ⟨_, by cbv, _, List.mem_cons_of_mem _ (List.mem_cons_of_mem _ List.mem_cons_self), _,
      rfl, by decide, _, _, _, _, .step (.step (.step .start rfl) rfl) rfl, rfl, ?_⟩
    decide
  have accepted : ∃ k, (upward.compile .standard).result = .ok k := ⟨_, by cbv⟩
  obtain ⟨k, hk⟩ := accepted
  obtain ⟨j, hj, v, hv, e, hvia, hback, top, past, last, m, hexec, hstack, hne⟩ := concrete
  obtain ⟨j', hj', rfl, hall⟩ := back_entry_top upward .standard k rfl hk
  obtain rfl : j = j' := Except.ok.inj (hj.symm.trans hj')
  have hvalue := ((hall v hv e hvia hback top [] hstack).2 _ _ _ _ past last m hexec).2
  exact ⟨_, hk, j, hj, v, hv, e, hvia, top, past, last, m, hexec, hstack, fun he => hne (hvalue.mp he)⟩

end StackFlow
