import Mathlib
import StackFlow.Proofs.IR.Paths
import StackFlow.Proofs.Walk.Remains

/-!
Which registers are written before they are read. The code of a block reads the registers that were on
the stack on its entry and its own; of those on the stack the phi is written on the way in, and the
others stay on the stack of the blocks before it as long as these leave the same registers below the
top. Main statement: in a method without backward jumps a register that is read was written earlier on
the path, unless the path goes along an edge that left another register in its place
(`reads_written`).
-/
namespace StackFlow

open IR (Reg Stmt BlockId Func Terminator dests writes Closed)

theorem Straight.closed {x : ExternTable} {max n : Nat} {i : Instr} {s t : List Reg}
    {c : List Stmt} (h : Straight x max i n s c t) : Closed (· ∈ s) c := by
  cases h with
  | @send s args receiver selector =>
    refine ⟨by simp [Stmt.uses], ?_, trivial⟩
    intro r hr
    simp only [Stmt.uses, List.mem_cons] at hr
    rcases hr with rfl | rfl | hr
    · exact .inl (by simp)
    · exact .inr rfl
    · exact .inl (by simp [hr])
  | _ => simp [Closed, Stmt.uses]

theorem Straights.closed {x : ExternTable} {max n : Nat} {is : List Instr} {s t : List Reg}
    {c : List Stmt} (h : Straights x max is n s c t) : Closed (· ∈ s) c := by
  induction h with
  | nil => trivial
  | cons first _ ih => exact first.closed.append (ih.mono fun _ hr => first.mem hr)

theorem Ending.closed {m : Method} {x : ExternTable} {t : BlockTable} {trap : Option BlockId}
    {b : BasicBlock} {n : Nat} {exit? : Option (Instr × Control)} {s : OperandStack}
    {code : List Stmt} {term : Terminator} {edges : List Edge}
    (h : Ending m x t trap b n exit? s code term edges) :
    Closed (· ∈ s.regs) code ∧ ∀ r ∈ term.uses, r ∈ s.regs ∨ r ∈ dests code := by
  cases h with
  | @branch _ kind =>
    cases kind <;> simp [Lowering.conditionCode, Closed, Stmt.uses, Stmt.dest?, Terminator.uses, dests]
  | throw => simp [Closed, Stmt.uses, Stmt.dest?, Terminator.uses, dests]
  | _ => simp [Closed, Terminator.uses]

theorem Visit.Laid.closed {m : Method} {x : ExternTable} {t : BlockTable} {trap : Option BlockId}
    {v : Visit} {code : List Stmt} {term : Terminator} (h : v.Laid m x t trap code term) :
    Closed (· ∈ v.opened.regs) code ∧
      ∀ r ∈ term.uses, r ∈ v.opened.regs ∨ r ∈ dests code := by
  obtain ⟨straight, ending, s, rfl, -, hstraight, hending⟩ := h
  obtain ⟨hclosed, huses⟩ := hending.closed
  refine ⟨hstraight.closed.append (hclosed.mono fun _ hr => hstraight.mem hr), ?_⟩
  intro r hr
  rw [IR.dests_append, List.mem_append]
  rcases huses r hr with hs | hd
  · rcases hstraight.mem hs with hs | hd
    · exact .inl hs
    · exact .inr (.inl hd)
  · exact .inr (.inr hd)

theorem Lowering.localsCode_closed (m : Method) : Closed (fun _ => False) (localsCode m) := by
  unfold localsCode
  induction List.range m.locals with
  | nil => trivial
  | cons i is ih =>
    rw [List.flatMap_cons]
    apply Closed.append _ (ih.mono fun _ => False.elim)
    unfold localCode
    split <;> simp [Closed, Stmt.uses, Stmt.dest?]

namespace Journal

variable {c : Compiler} {x : ExternTable} {j : Journal}

/-- The path goes along an edge that does not have the register on its stack to a block that takes it
for a value below the top. -/
def Strays (j : Journal) (path : List BlockId) (r : Reg) : Prop :=
  ∃ later earlier, ∃ e ∈ j.passed, ∃ v ∈ j.visits,
    path = later ++ v.handle :: e.pred :: earlier ∧ v.start = e.dest ∧ r ∈ v.opened.regs.tail ∧
      r ∉ e.stack.regs

theorem Strays.cons {path : List BlockId} {r : Reg} (h : j.Strays path r) (b : BlockId) :
    j.Strays (b :: path) r := by
  obtain ⟨later, earlier, e, he, v, hv, rfl, hs, hr, hn⟩ := h
  exact ⟨b :: later, earlier, e, he, v, hv, rfl, hs, hr, hn⟩

namespace Final

/-- A path is at the entry, at a block that it came to along an edge, or in the trap. -/
theorem path_cases (h : j.Final c x) {b : BlockId} {before : List BlockId}
    (hp : j.func.Path (b :: before)) :
    b = Func.entry ∨ j.walk.trap = some b ∨ ∃ v ∈ j.visits, v.handle = b ∧
      (v.Begins c.method ∨ ∃ u ∈ j.visits, ∃ e ∈ u.edges, v.start = e.dest ∧
        before.head? = some u.handle) := by
  generalize hpath : b :: before = path at hp
  induction hp generalizing b before with
  | entry => cases hpath; exact .inl rfl
  | @step p b' before' path next ih =>
    cases hpath
    right
    unfold Func.successors at next
    rcases ih rfl with rfl | htrap | ⟨u, hu, rfl, -⟩
    · right
      obtain ⟨target, htarget, hjump⟩ := h.reached.coded.start
      unfold Func.exit at hjump
      rw [hjump] at next
      obtain ⟨v, hv, begins⟩ := h.exists_first
      have hhandle := h.reached.linked.handle?_start hv
      rw [begins.start, htarget] at hhandle
      cases hhandle
      exact ⟨v, hv, (List.mem_singleton.mp next).symm, .inl begins⟩
    · have hexit := (h.code_trap htrap).2.1
      unfold Func.exit at hexit
      rw [hexit] at next
      cases next
    · obtain ⟨code, -, hlaid⟩ := h.reached.coded.filled u hu
      obtain ⟨e, he, ht⟩ := hlaid.exists_edge h.divides next
      rcases h.exists_visit hu he ht with ⟨v, hv, hs, hh⟩ | ⟨-, htrap⟩
      · exact .inr ⟨v, hv, hh, .inr ⟨u, hu, e, he, hs, rfl⟩⟩
      · exact .inl htrap

/-- A path comes to a block that was entered along one of its edges, or it is at the first block. -/
theorem entered_from (h : j.Final c x) {before : List BlockId} {v : Visit} (hv : v ∈ j.visits)
    (hp : j.func.Path (v.handle :: before)) :
    v.Begins c.method ∨ ∃ u ∈ j.visits, ∃ e ∈ u.edges, v.start = e.dest ∧
      before.head? = some u.handle := by
  obtain ⟨b, hb, -, -, hbh⟩ := h.reached.linked.exists_block hv
  rcases h.path_cases hp with hentry | htrap | ⟨v', hv', hh, hcases⟩
  · exact absurd (hbh.trans hentry) (h.divides.inside b hb)
  · exact absurd hbh ((h.reached.coded.trap _ htrap).2.2.2 b hb)
  · obtain rfl := h.reached.linked.eq_of_handle_eq h.divides hv' hv hh
    exact hcases

/-- The phi at the head of a block is written on the way in, from a block that is a source of it. -/
theorem phi_written (h : j.Final c x) {u v : Visit} (hu : u ∈ j.visits) (hv : v ∈ j.visits)
    {e : Edge} (he : e ∈ u.edges) (forward : e.source < e.dest) (hs : v.start = e.dest) {r : Reg}
    (htop : v.opened.top? = some r) :
    r ∈ writes (some u.handle) (v.opened.phis (j.incoming v.start)) := by
  obtain ⟨code, -, hlaid⟩ := h.reached.coded.filled u hu
  have hpassed := h.edge_passed hu he
  have hcarried := h.reached.linked.carried e hpassed forward v hv hs
  rw [htop] at hcarried
  obtain ⟨q, hq⟩ := Option.isSome_iff_exists.mp hcarried.symm
  have hin : (u.handle, q) ∈ j.incoming v.start :=
    mem_incoming.mpr ⟨e, hpassed, hs.symm, by omega, hlaid.edge_pred he, hq⟩
  have hany : (j.incoming v.start).any (some ·.1 = some u.handle) = true := by
    rw [List.any_eq_true]
    exact ⟨_, hin, by simp⟩
  simp only [OperandStack.phis, htop, Option.toList_some, List.map_cons, List.map_nil, writes,
    List.filterMap_cons, Stmt.writes?, hany, if_true]
  exact List.mem_cons_self

/-- On entry of a block the registers on its stack are written, or the path has strayed. -/
theorem opened_written (h : j.Final c x) (hf : c.method.Forward) {before : List BlockId} {v : Visit}
    (hv : v ∈ j.visits) (hp : j.func.Path (v.handle :: before)) {r : Reg}
    (hr : r ∈ v.opened.regs) :
    r ∈ writes before.head? (v.opened.phis (j.incoming v.start)) ++ j.func.written before ∨
      j.Strays (v.handle :: before) r := by
  induction before generalizing v with
  | nil =>
    rcases h.entered_from hv hp with begins | ⟨u, -, e, -, -, hhead⟩
    · rw [begins.opened] at hr
      cases hr
    · cases hhead
  | cons b before ih =>
    rcases h.entered_from hv hp with begins | ⟨u, hu, e, he, hs, hhead⟩
    · rw [begins.opened] at hr
      cases hr
    · cases hhead
      obtain ⟨rest, -, hremains⟩ := h.remains hu
      obtain ⟨code, hcode, hlaid⟩ := h.reached.coded.filled u hu
      have hpassed := h.edge_passed hu he
      have hforward := hremains.forward hf e he
      have hpred := hlaid.edge_pred he
      cases hregs : v.opened.regs with
      | nil => rw [hregs] at hr; cases hr
      | cons top below =>
        have htop : v.opened.top? = some top := by simp [OperandStack.top?, hregs]
        rw [hregs] at hr
        rcases List.mem_cons.mp hr with rfl | hr
        · left
          exact List.mem_append_left _ (h.phi_written hu hv he hforward hs htop)
        · by_cases hstack : r ∈ e.stack.regs
          · have hopened : r ∈ u.opened.regs ∨ r ∈ dests code := hlaid.mem_stack he hstack
            rcases hopened with hopened | hdest
            · rcases ih hu hp.of_cons hopened with hw | hstray
              · left
                apply List.mem_append_right
                rw [Func.written, hcode, IR.writes_append]
                rcases List.mem_append.mp hw with hw | hw
                · exact List.mem_append_left _ (List.mem_append_left _ hw)
                · exact List.mem_append_right _ hw
              · exact .inr (hstray.cons _)
            · left
              apply List.mem_append_right
              rw [Func.written, hcode, IR.writes_append, IR.writes_eq_dests hlaid.isPhi]
              exact List.mem_append_left _ (List.mem_append_right _ hdest)
          · right
            refine ⟨[], before, e, hpassed, v, hv, by rw [hpred]; rfl, hs, ?_, hstack⟩
            rw [hregs]
            exact hr

/-- What a block reads is written before, or the path has strayed. -/
theorem reads_written (h : j.Final c x) (hf : c.method.Forward) {b : BlockId}
    {before : List BlockId} (hp : j.func.Path (b :: before)) {done : List Stmt} {r : Reg}
    (hr : j.func.Reads b done r) :
    r ∈ writes before.head? done ++ j.func.written before ∨ j.Strays (b :: before) r := by
  rcases h.path_cases hp with rfl | htrap | ⟨v, hv, rfl, -⟩
  · left
    apply List.mem_append_left
    have hphi := Lowering.localsCode_isPhi c.method
    cases hr with
    | @stmt done rest s r code plain use =>
      rw [h.reached.coded.entry] at code
      have hclosed := Lowering.localsCode_closed c.method
      rw [code] at hclosed hphi
      rw [IR.writes_eq_dests fun t ht => hphi t (List.mem_append_left _ ht)]
      exact (hclosed.uses use).resolve_left id
    | copy copy =>
      rw [h.copies_of_ne h.handle_ne_entry] at copy
      cases copy
    | terminator use =>
      obtain ⟨target, -, hjump⟩ := h.reached.coded.start
      rw [hjump] at use
      cases use
  · obtain ⟨hcode, hexit, hcopies⟩ := h.code_trap htrap
    cases hr with
    | stmt code =>
      rw [hcode] at code
      exact absurd code.symm (by simp)
    | copy copy => rw [hcopies] at copy; cases copy
    | terminator use => rw [hexit] at use; cases use
  · obtain ⟨code, hcode, hlaid⟩ := h.reached.coded.filled v hv
    obtain ⟨hclosed, huses⟩ := hlaid.closed
    -- what was on the stack on entry is settled, and the rest comes from the block itself
    have settle {later : List Stmt} (hsub : ∀ s ∈ later, s.isPhi = false)
        (hr : r ∈ v.opened.regs ∨ r ∈ dests later) :
        r ∈ writes before.head? (v.opened.phis (j.incoming v.start) ++ later) ++
          j.func.written before ∨ j.Strays (v.handle :: before) r := by
      rw [IR.writes_append, IR.writes_eq_dests hsub]
      rcases hr with hr | hr
      · rcases h.opened_written hf hv hp hr with hw | hstray
        · left
          rcases List.mem_append.mp hw with hw | hw
          · exact List.mem_append_left _ (List.mem_append_left _ hw)
          · exact List.mem_append_right _ hw
        · exact .inr hstray
      · exact .inl (List.mem_append_left _ (List.mem_append_right _ hr))
    cases hr with
    | @stmt done rest s r split plain use =>
      rw [hcode] at split
      obtain ⟨later, rfl, hlater⟩ := IR.split_after_phis (v.opened.phis_isPhi _) plain split
      rw [hlater] at hclosed
      refine settle (fun t ht => hlaid.isPhi t ?_) (hclosed.uses use)
      rw [hlater]
      exact List.mem_append_left _ ht
    | copy copy =>
      obtain ⟨e, he, -, htop, -⟩ := (h.mem_copies_handle hv).mp copy
      rw [hcode]
      exact settle hlaid.isPhi (hlaid.mem_stack he (List.mem_of_head? htop))
    | terminator use =>
      rw [hcode]
      exact settle hlaid.isPhi (huses r use)

end Final

end Journal

/-- Without backward jumps, whatever the function of an accepted method reads on a path was written
earlier on the path, unless the path has gone along an edge that left another register where the
block that it leads to takes this one for a value below the top. -/
theorem read_written_or_strays (c : Compiler) (x : ExternTable) (k : Compiled)
    (standard : c.lowering = .standard) (accepted : (c.compile x).result = .ok k)
    (forward : c.method.Forward) :
    ∃ j, c.journal x = .ok j ∧ k = j.compiled ∧ ∀ b before, k.func.Path (b :: before) →
      ∀ done r, k.func.Reads b done r →
        r ∈ writes before.head? done ++ k.func.written before ∨ j.Strays (b :: before) r := by
  obtain ⟨j, hj, rfl⟩ := Compiler.journal_of_compile accepted
  have h := Journal.final_of_journal standard hj
  exact ⟨j, hj, rfl, fun b before hp done r hr => h.reads_written forward hp hr⟩

/-- Both arms leave two values: `putself; branchif L; putobject 1; putobject 2; jump M;
L: putobject 3; putobject 4; M: pop; leave`. -/
def lopsided : Compiler where
  method :=
    { name := "lopsided"
      code := [3, 26, 5, 6, 4, 5, 25, 4, 4, 7, 4, 9, 9, 23]
      stackMax := 3
      params := 0
      locals := 0
      instrs := [⟨0, .putSelf, []⟩, ⟨1, .branchIf, [.offset 5]⟩, ⟨3, .putOne, []⟩,
        ⟨4, .putObject, [.value ⟨5⟩]⟩, ⟨6, .jump, [.offset 4]⟩, ⟨8, .putObject, [.value ⟨7⟩]⟩,
        ⟨10, .putObject, [.value ⟨9⟩]⟩, ⟨12, .pop, []⟩, ⟨13, .leave, []⟩]
      verified := by cbv }
  lowering := .standard

/-- Its last block can be come to on the path where the branch is taken, and returns register 5. -/
theorem lopsided_path : ∃ k, (lopsided.compile .standard).result = .ok k ∧
    k.func.Path [⟨4⟩, ⟨3⟩, ⟨1⟩, ⟨0⟩] ∧ k.func.Reads ⟨4⟩ (k.func.code ⟨4⟩) ⟨5⟩ ∧
    ⟨5⟩ ∉ writes (some ⟨3⟩) (k.func.code ⟨4⟩) ++ k.func.written [⟨3⟩, ⟨1⟩, ⟨0⟩] := by
  refine ⟨_, by cbv, ?_, .terminator (by decide), by decide⟩
  exact .step (.step (.step .entry (by decide)) (by decide)) (by decide)

/-- The register that it returns is one of the other arm. -/
theorem lopsided_reads_unwritten : lopsided.method.Forward ∧
    ∃ k, (lopsided.compile .standard).result = .ok k ∧
      k.func.Path [⟨4⟩, ⟨3⟩, ⟨1⟩, ⟨0⟩] ∧ k.func.Reads ⟨4⟩ (k.func.code ⟨4⟩) ⟨5⟩ ∧
      ⟨5⟩ ∉ writes (some ⟨3⟩) (k.func.code ⟨4⟩) ++ k.func.written [⟨3⟩, ⟨1⟩, ⟨0⟩] :=
  ⟨by decide, lopsided_path⟩

theorem lopsided_strays :
    ∃ j, lopsided.journal .standard = .ok j ∧ j.Strays [⟨4⟩, ⟨3⟩, ⟨1⟩, ⟨0⟩] ⟨5⟩ := by
  obtain ⟨k, hk, hpath, hreads, hnot⟩ := lopsided_path
  obtain ⟨j, hj, -, hall⟩ := read_written_or_strays lopsided .standard k rfl hk (by decide)
  exact ⟨j, hj, (hall _ _ hpath _ _ hreads).resolve_left hnot⟩

end StackFlow
