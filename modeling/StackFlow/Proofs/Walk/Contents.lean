import StackFlow.Proofs.Walk.Links

/-!
The function that a compilation has built so far. Each block that was entered holds the phi of the
values that have come to it and then its code (`Journal.Coded`), and the registers are numbered in
the order in which the blocks were entered (`Journal.Ranged`).
-/
namespace StackFlow

open IR (Reg Stmt BlockId Func Terminator dests)

/-- Number of the first register after those that the block defines. -/
def Visit.limit (f : Func) (v : Visit) : Nat := v.first + (dests (f.code v.handle)).length

namespace Journal

def func (j : Journal) : Func := j.walk.builder.func

/-- The values that the edges followed have brought to a block, in their order. -/
def incoming (j : Journal) (start : Nat) : List (BlockId × Reg) :=
  (j.passed.filter (·.dest = start)).flatMap Edge.joins

structure Coded (c : Compiler) (x : ExternTable) (j : Journal) : Prop where
  filled : ∀ v ∈ j.visits, ∃ code,
    j.func.code v.handle = v.opened.phis (j.incoming v.start) ++ code ∧
      v.Laid c.method x j.walk.table j.walk.trap code (j.func.exit v.handle)
  entry : j.func.code Func.entry = Lowering.localsCode c.method
  start : ∃ target, j.walk.table.handle? 0 = some target ∧ j.func.exit Func.entry = .jump target
  inside : Func.entry.index < j.func.blocks.length
  elsewhere : ∀ id, id ≠ Func.entry → (∀ v ∈ j.visits, v.handle ≠ id) → j.func.code id = []
  trap : ∀ id, j.walk.trap = some id → j.func.exit id = .unreachable ∧ id ≠ Func.entry ∧
    id.index < j.func.blocks.length ∧ ∀ b ∈ j.walk.table.blocks, b.handle ≠ id
  externs : j.walk.builder.externs = x

variable {c : Compiler} {x : ExternTable} {j j' : Journal}

theorem incoming_append (j : Journal) (w : Walk) (pending : List Edge) (visits : List Visit)
    (es : List Edge) (start : Nat) :
    incoming { walk := w, pending, passed := j.passed ++ es, visits } start =
      j.incoming start ++ (es.filter (·.dest = start)).flatMap Edge.joins := by
  simp [incoming]

theorem incoming_concat (j : Journal) (w : Walk) (pending : List Edge) (visits : List Visit)
    (e : Edge) (start : Nat) :
    incoming { walk := w, pending, passed := j.passed ++ [e], visits } start =
      j.incoming start ++ if e.dest = start then e.joins else [] := by
  rw [incoming_append]
  by_cases hd : e.dest = start <;> simp [hd]

theorem mem_incoming {start : Nat} {p : BlockId} {r : Reg} :
    (p, r) ∈ j.incoming start ↔ ∃ e ∈ j.passed, e.dest = start ∧ e.source < start ∧ e.pred = p ∧
      e.stack.top? = some r := by
  unfold incoming
  simp only [List.mem_flatMap, List.mem_filter, decide_eq_true_eq]
  constructor
  · rintro ⟨e, ⟨he, rfl⟩, hj⟩
    rcases Nat.lt_or_ge e.source e.dest with hlt | hge
    · rw [e.joins_forward hlt] at hj
      cases ht : e.stack.top? with
      | none => rw [ht] at hj; cases hj
      | some q =>
        rw [ht] at hj
        cases List.mem_singleton.mp hj
        exact ⟨e, he, rfl, hlt, rfl, ht⟩
    · rw [e.joins_backward hge] at hj
      cases hj
  · rintro ⟨e, he, rfl, hlt, rfl, ht⟩
    refine ⟨e, ⟨he, rfl⟩, ?_⟩
    rw [e.joins_forward hlt, ht]
    exact List.mem_singleton_self _

theorem Coded.init {w : Walk} (blank : w.Blank c.method x) :
    Coded c x { walk := w, pending := [] } where
  filled := by simp
  entry := (blank.code _).trans (if_pos rfl)
  start := blank.exit
  inside := blank.inside
  elsewhere id hid _ := (blank.code id).trans (if_neg hid)
  trap id h := by
    dsimp only at h
    rw [blank.trap] at h
    cases h
  externs := blank.externs

/-- The phi at the head of a block takes the values that come. -/
theorem addSource_phis (s : OperandStack) {r : Reg} (h : s.top? = some r)
    (sources : List (BlockId × Reg)) (source : BlockId × Reg) (code : List Stmt) :
    Stmt.addSource r source (s.phis sources ++ code) = s.phis (sources ++ [source]) ++ code := by
  simp [OperandStack.phis, h, Stmt.addSource]

theorem Coded.pass {e : Edge} {rest : List Edge} {w : Walk} (h : Coded c x j)
    (linked : Linked c.method j) (divides : j.walk.table.Divides c.method)
    (passes : j.walk.Passes e w) :
    Coded c x { walk := w, pending := rest, passed := j.passed ++ [e], visits := j.visits } := by
  -- all but a value leave the function as it is
  have still (hw : w = j.walk)
      (hs : ∀ v ∈ j.visits, e.dest = v.start → e.joins = []) :
      Coded c x
        { walk := w, pending := rest, passed := j.passed ++ [e], visits := j.visits } := by
    subst hw
    refine ⟨?_, h.entry, h.start, h.inside, h.elsewhere, h.trap, h.externs⟩
    intro v hv
    rw [incoming_concat, ite_eq_right_iff.mpr (hs v hv), List.append_nil]
    exact h.filled v hv
  cases passes with
  | outside absent =>
    apply still rfl
    intro v hv hd
    obtain ⟨b, hb, -⟩ := linked.visited v hv
    rw [← hd, absent] at hb
    cases hb
  | back _ _ backward => exact still rfl fun _ _ _ => e.joins_backward backward
  | empty _ _ forward none _ =>
    apply still rfl
    intro _ _ _
    rw [e.joins_forward forward, none]
    rfl
  | @value b phi r builder found done forward top merge grown =>
    obtain ⟨hcode, hexit, hlen, -, -, -, hext⟩ := IR.Builder.addPhiSource?_eq_some grown
    obtain ⟨hmem, -⟩ := BlockTable.of_block?_eq_some found
    refine ⟨?_, ?_, ?_, ?_, ?_, ?_, ?_⟩
    · intro v hv
      obtain ⟨code, hfilled, hlaid⟩ := h.filled v hv
      have hiff := linked.handle_eq_iff divides found hv
      refine ⟨code, ?_, ?_⟩
      · refine (hcode v.handle).trans ?_
        rw [incoming_concat]
        by_cases hd : e.dest = v.start
        · obtain ⟨k, hk, -, hkm, -⟩ := linked.visited v hv
          rw [← hd, found] at hk
          cases hk
          rw [if_pos (hiff.mpr hd), if_pos hd, e.joins_forward forward, top]
          refine (congrArg _ hfilled).trans ?_
          rw [addSource_phis _ (hkm.symm.trans merge)]
          rfl
        · rw [if_neg (mt hiff.mp hd), if_neg hd, List.append_nil]
          exact hfilled
      · have := hexit v.handle
        dsimp only [func] at this ⊢
        rw [this]
        exact hlaid
    · refine (hcode _).trans ?_
      rw [if_neg (divides.inside b hmem).symm]
      exact h.entry
    · obtain ⟨target, ht, hjump⟩ := h.start
      exact ⟨target, ht, (hexit _).trans hjump⟩
    · exact Nat.lt_of_lt_of_eq h.inside hlen.symm
    · intro id hid hnot
      refine (hcode id).trans ?_
      have hnil := h.elsewhere id hid hnot
      unfold func at hnil
      rw [hnil]
      split <;> rfl
    · intro id hid
      obtain ⟨hun, hne, hlt, hhandles⟩ := h.trap id hid
      exact ⟨(hexit id).trans hun, hne, Nat.lt_of_lt_of_eq hlt hlen.symm, hhandles⟩
    · exact hext.trans h.externs

/-- A block that is entered was empty. -/
theorem Coded.filled_of_opens {w : Walk} {v : Visit} {code : List Stmt} {term : Terminator}
    (h : Coded c x j) (linked : Linked c.method j) (tidy : j.walk.Tidy c.method)
    (opens : j.walk.Opens c w v code term) :
    v.handle ≠ Func.entry ∧
      w.builder.func.code v.handle = v.opened.phis v.block.pending ++ code := by
  obtain ⟨b, hmem, -, hbh⟩ := opens.exists_block
  have hentry : v.handle ≠ Func.entry := by
    rw [← hbh]
    exact tidy.divides.inside b hmem
  have hnil : j.walk.builder.func.code v.handle = [] :=
    h.elsewhere v.handle hentry fun u hu => linked.handle_ne tidy.divides opens hu
  refine ⟨hentry, ?_⟩
  rw [opens.filled, if_pos rfl, hnil, List.nil_append]

/-- The values that wait for a block are those that the edge into it brings. -/
theorem joins_via {m : Method} {v : Visit} (how : (∃ e, v.Via e) ∨ v.Begins m) :
    (v.via.toList.filter (·.dest = v.start)).flatMap Edge.joins = v.block.pending := by
  rcases how with ⟨e, via⟩ | begins
  · rw [via.via, via.pending]
    simp [via.start]
  · rw [begins.via, begins.pending]
    rfl

section Enter

variable {v : Visit} {rest : List Edge} {w : Walk} {code : List Stmt} {term : Terminator}

theorem incoming_enter_self (linked : Linked c.method j) (opens : j.walk.Opens c w v code term)
    (how : (∃ e, v.Via e) ∨ v.Begins c.method) (pending : List Edge) (visits : List Visit) :
    incoming { walk := w, pending, passed := j.passed ++ v.via.toList, visits } v.start =
      v.block.pending := by
  have hempty : j.passed.filter (·.dest = v.start) = [] := by
    rw [List.filter_eq_nil_iff]
    intro e he
    simpa using (linked.fresh opens).2 e he
  rw [incoming_append, joins_via how]
  unfold incoming
  rw [hempty]
  rfl

theorem incoming_enter_of_mem (linked : Linked c.method j) (opens : j.walk.Opens c w v code term)
    (how : (∃ e, v.Via e) ∨ v.Begins c.method) (pending : List Edge) (visits : List Visit)
    {u : Visit} (hu : u ∈ j.visits) :
    incoming { walk := w, pending, passed := j.passed ++ v.via.toList, visits } u.start =
      j.incoming u.start := by
  have hempty : v.via.toList.filter (·.dest = u.start) = [] := by
    rw [List.filter_eq_nil_iff]
    intro e he
    rw [← (Visit.via_of_mem how he).start]
    simpa using ((linked.fresh opens).1 u hu).symm
  rw [incoming_append, hempty]
  exact List.append_nil _

/-- The block that traps stays apart from those of the method. -/
theorem Coded.trap_enter (h : Coded c x j) (tidy : j.walk.Tidy c.method)
    (opens : j.walk.Opens c w v code term) {id : BlockId} (hid : w.trap = some id) :
    w.builder.func.exit id = .unreachable ∧ id ≠ Func.entry ∧
      id.index < w.builder.func.blocks.length ∧ ∀ b ∈ w.table.blocks, b.handle ≠ id := by
  obtain ⟨b, hb, -, hbh⟩ := opens.exists_block
  rcases opens.trap id hid with hold | ⟨hle, hlt, hun⟩
  · obtain ⟨hun, hne, hlt, hnot⟩ := h.trap id hold
    refine ⟨?_, hne, Nat.lt_of_lt_of_le hlt opens.length, ?_⟩
    · refine (opens.exit id hlt).trans ?_
      rw [if_neg]
      · exact hun
      · intro he
        exact hnot b hb (hbh.trans he.symm)
    · intro k hk
      obtain ⟨k', hk', he⟩ := opens.exists_handle hk
      rw [← he]
      exact hnot k' hk'
  · refine ⟨hun, ?_, hlt, ?_⟩
    · rintro rfl
      exact Nat.lt_irrefl _ (Nat.lt_of_lt_of_le h.inside hle)
    · intro k hk he
      obtain ⟨k', hk', he'⟩ := opens.exists_handle hk
      have := tidy.inside k' hk'
      rw [he', he] at this
      exact Nat.lt_irrefl _ (Nat.lt_of_lt_of_le this hle)

theorem Coded.enter (h : Coded c x j) (linked : Linked c.method j)
    (tidy : j.walk.Tidy c.method) (opens : j.walk.Opens c w v code term)
    (how : (∃ e, v.Via e) ∨ v.Begins c.method) :
    Coded c x
      { walk := w, pending := v.edges ++ rest, passed := j.passed ++ v.via.toList
        visits := j.visits ++ [v] } := by
  have hother {u : Visit} (hu : u ∈ j.visits) := linked.handle_ne tidy.divides opens hu
  obtain ⟨hentry, hfilled₀⟩ := h.filled_of_opens linked tidy opens
  have hlt : v.handle.index < j.func.blocks.length := by
    obtain ⟨b, hb, -, hbh⟩ := opens.exists_block
    rw [← hbh]
    exact tidy.inside b hb
  have hinside {u : Visit} (hu : u ∈ j.visits) : u.handle.index < j.func.blocks.length := by
    obtain ⟨k, hk, -, -, hkh⟩ := linked.exists_block hu
    rw [← hkh]
    exact tidy.inside k hk
  refine ⟨?_, ?_, ?_, ?_, ?_, fun _ => h.trap_enter tidy opens, opens.externs.trans h.externs⟩
  · refine List.forall_mem_append.mpr ⟨?_, List.forall_mem_singleton.mpr ?_⟩
    · intro u hu
      obtain ⟨code', hfilled, hlaid⟩ := h.filled u hu
      refine ⟨code', ?_, ?_⟩
      · refine (opens.filled u.handle).trans ?_
        rw [if_neg (hother hu), incoming_enter_of_mem linked opens how _ _ hu]
        exact hfilled
      · have hexit := opens.exit u.handle (hinside hu)
        rw [if_neg (hother hu)] at hexit
        have hsame := hlaid.of_sites opens.sites_eq opens.keeps
        dsimp only [func] at hexit ⊢
        rw [hexit]
        exact hsame
    · refine ⟨code, ?_, ?_⟩
      · refine hfilled₀.trans ?_
        rw [incoming_enter_self linked opens how]
      · have hexit := opens.exit v.handle hlt
        rw [if_pos rfl] at hexit
        dsimp only [func]
        rw [hexit, ← h.externs]
        exact opens.laid
  · refine (opens.filled _).trans ?_
    rw [if_neg hentry.symm]
    exact h.entry
  · obtain ⟨target, ht, hjump⟩ := h.start
    refine ⟨target, ?_, ?_⟩
    · rw [BlockTable.handle?_congr opens.sites_eq]
      exact ht
    · refine (opens.exit _ h.inside).trans ?_
      rw [if_neg hentry.symm]
      exact hjump
  · exact Nat.lt_of_lt_of_le h.inside opens.length
  · intro id hid hnot
    refine (opens.filled id).trans ?_
    rw [if_neg (hnot v (List.mem_append_right _ (List.mem_singleton_self v))).symm]
    exact h.elsewhere id hid fun u hu => hnot u (List.mem_append_left _ hu)

end Enter

theorem Reached.coded (h : j.Reached c x) : Coded c x j := by
  induction h with
  | init blank => exact .init blank
  | step before hs ih =>
    cases hs with
    | pass _ passes => exact ih.pass before.linked before.tidy.divides passes
    | enter _ opens how =>
      exact ih.enter before.linked before.tidy opens (how.imp_right fun hfirst => hfirst.2.2.2)

structure Ranged (m : Method) (j : Journal) : Prop where
  locals : m.locals ≤ j.func.nextReg
  low : ∀ v ∈ j.visits, m.locals ≤ v.first
  high : ∀ v ∈ j.visits, v.limit j.func ≤ j.func.nextReg
  ordered : j.visits.Pairwise fun u v => u.limit j.func ≤ v.first
  below : ∀ v ∈ j.visits, ∀ r ∈ v.opened.regs, r.index < v.next
  entries : ∀ v ∈ j.visits, ∀ r ∈ v.opened.regs.tail, r.index < v.first
  pending : ∀ e ∈ j.pending, ∀ r ∈ e.stack.regs, r.index < j.func.nextReg

theorem Ranged.init {w : Walk} (blank : w.Blank c.method x) :
    Ranged c.method { walk := w, pending := [] } where
  locals := Nat.le_of_eq blank.nextReg.symm
  low := by simp
  high := by simp
  ordered := .nil
  below := by simp
  entries := by simp
  pending := by simp

theorem Ranged.pass {e : Edge} {rest : List Edge} {w : Walk} (h : Ranged c.method j)
    (next : j.pending = e :: rest) (passes : j.walk.Passes e w) :
    Ranged c.method
      { walk := w, pending := rest, passed := j.passed ++ [e], visits := j.visits } := by
  have hfunc : w.builder.func.nextReg = j.func.nextReg ∧
      ∀ v : Visit, v.limit w.builder.func = v.limit j.func := by
    cases passes with
    | value _ _ _ _ _ grown =>
      obtain ⟨hcode, -, -, hnext, -⟩ := IR.Builder.addPhiSource?_eq_some grown
      refine ⟨hnext, fun v => ?_⟩
      unfold Visit.limit
      rw [hcode]
      split
      · rw [IR.dests_addSource]; rfl
      · rfl
    | _ => exact ⟨rfl, fun _ => rfl⟩
  obtain ⟨hnext, hlimit⟩ := hfunc
  unfold func at hnext hlimit
  refine ⟨?_, h.low, ?_, ?_, h.below, h.entries, ?_⟩
  · exact Nat.le_trans h.locals (Nat.le_of_eq hnext.symm)
  · intro v hv
    dsimp only [func]
    rw [hlimit, hnext]
    exact h.high v hv
  · dsimp only [func]
    simp only [hlimit]
    exact h.ordered
  · intro k hk r hr
    dsimp only [func]
    rw [hnext]
    exact h.pending k (by rw [next]; exact List.mem_cons_of_mem e hk) r hr

theorem Ranged.enter {v : Visit} {rest : List Edge} {w : Walk} {code : List Stmt}
    {term : Terminator} (h : Ranged c.method j) (coded : Coded c x j) (linked : Linked c.method j)
    (tidy : j.walk.Tidy c.method) (next : j.pending = v.via.toList ++ rest)
    (opens : j.walk.Opens c w v code term) (how : (∃ e, v.Via e) ∨ v.Begins c.method) :
    Ranged c.method
      { walk := w, pending := v.edges ++ rest, passed := j.passed ++ v.via.toList
        visits := j.visits ++ [v] } := by
  obtain ⟨-, hfilled⟩ := coded.filled_of_opens linked tidy opens
  have hfirst : v.first = j.func.nextReg := opens.first
  have hnext : v.first ≤ v.next := Nat.le_add_right _ _
  have hend : v.limit w.builder.func = w.builder.func.nextReg := by
    unfold Visit.limit
    rw [hfilled, opens.nextReg, IR.dests_append, List.length_append,
      OperandStack.length_dests_phis, ← Nat.add_assoc]
    rfl
  have hgrows : w.builder.func.nextReg = v.next + (dests code).length := opens.nextReg
  have hle : j.func.nextReg ≤ w.builder.func.nextReg := by omega
  have hlimit {u : Visit} (hu : u ∈ j.visits) : u.limit w.builder.func = u.limit j.func := by
    unfold Visit.limit
    rw [opens.filled, if_neg (linked.handle_ne tidy.divides opens hu)]
    rfl
  have hentries : ∀ r ∈ v.opened.regs.tail, r.index < v.first := by
    intro r hr
    rcases how with ⟨e, via⟩ | begins
    · have hmem : e ∈ j.pending := by
        rw [next, via.via]
        exact List.mem_append_left _ (List.mem_singleton_self e)
      rw [hfirst]
      exact h.pending e hmem r (via.mem_tail hr)
    · rw [begins.opened] at hr
      cases hr
  refine ⟨Nat.le_trans h.locals hle, ?_, ?_, ?_, ?_, ?_, ?_⟩
  · refine List.forall_mem_append.mpr ⟨h.low, List.forall_mem_singleton.mpr ?_⟩
    rw [hfirst]
    exact h.locals
  · refine List.forall_mem_append.mpr ⟨?_, List.forall_mem_singleton.mpr (Nat.le_of_eq hend)⟩
    intro u hu
    dsimp only [func]
    rw [hlimit hu]
    exact Nat.le_trans (h.high u hu) hle
  · refine List.pairwise_append.mpr ⟨?_, List.pairwise_singleton _ _, ?_⟩
    · refine h.ordered.imp_of_mem ?_
      intro u u' hu _ hle
      dsimp only [func]
      rw [hlimit hu]
      exact hle
    · intro u hu u' hu'
      rw [List.mem_singleton.mp hu', hfirst]
      dsimp only [func]
      rw [hlimit hu]
      exact h.high u hu
  · refine List.forall_mem_append.mpr ⟨h.below, List.forall_mem_singleton.mpr ?_⟩
    intro r hr
    exact Visit.lt_next how hentries hr
  · exact List.forall_mem_append.mpr ⟨h.entries, List.forall_mem_singleton.mpr hentries⟩
  · refine List.forall_mem_append.mpr ⟨?_, ?_⟩
    · intro e he r hr
      dsimp only [func]
      rcases opens.laid.mem_stack he hr with hm | hm
      · have := Visit.lt_next how hentries hm
        omega
      · have := (opens.laid.numbered.bounds hm).2
        omega
    · intro e he r hr
      have hmem : e ∈ j.pending := by
        rw [next]
        exact List.mem_append_right _ he
      exact Nat.lt_of_lt_of_le (h.pending e hmem r hr) hle

theorem Reached.ranged (h : j.Reached c x) : Ranged c.method j := by
  induction h with
  | init blank => exact .init blank
  | step before hs ih =>
    cases hs with
    | pass next passes => exact ih.pass next passes
    | enter next opens how =>
      exact ih.enter before.coded before.linked before.tidy next opens
        (how.imp_right fun hfirst => hfirst.2.2.2)

end Journal

end StackFlow
