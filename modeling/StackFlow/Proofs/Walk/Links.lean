import StackFlow.Proofs.Walk.Step

/-!
How the blocks that a compilation entered hang together: a block is entered once, the edges followed
or left are those that leave the blocks entered, and each block but the first was entered along an
edge of an earlier one. Main statements: this holds of every journal that a compilation comes to
(`Journal.Reached.linked`), and what passes from a block to one entered from it holds of all
(`Journal.Linked.visit_induction`).
-/
namespace StackFlow

open IR (Reg Stmt BlockId Func Terminator)

/-- Whether an edge brings a value to a block agrees with the block. -/
theorem Visit.Via.isSome_top? {v : Visit} {e : Edge} (h : v.Via e) :
    v.opened.top?.isSome = e.stack.top?.isSome := by
  rw [h.opened]
  cases hs : e.stack.regs <;> simp [OperandStack.top?, hs]

/-- The edge noted with a block is the one that entered it. -/
theorem Visit.via_of_mem {m : Method} {v : Visit} (how : (∃ e, v.Via e) ∨ v.Begins m) {e : Edge}
    (he : e ∈ v.via.toList) : v.Via e := by
  rcases how with ⟨k, via⟩ | begins
  · rw [via.via] at he
    rw [List.mem_singleton.mp he]
    exact via
  · rw [begins.via] at he
    cases he

/-- The stack on entry of a block is empty, or has the phi on top. -/
theorem Visit.opened_regs_eq {m : Method} {v : Visit} (how : (∃ e, v.Via e) ∨ v.Begins m) :
    v.opened.regs = [] ∨ v.opened.regs = ⟨v.first⟩ :: v.opened.regs.tail := by
  rcases how with ⟨e, via⟩ | begins
  · rw [via.opened]
    cases hs : e.stack.regs with
    | nil => exact .inl (by simp [OperandStack.top?, hs])
    | cons => exact .inr (by simp [OperandStack.top?, hs])
  · rw [begins.opened]
    exact .inl rfl

theorem Visit.top?_opened {m : Method} {v : Visit} (how : (∃ e, v.Via e) ∨ v.Begins m) :
    v.opened.top? = none ∨ v.opened.top? = some ⟨v.first⟩ := by
  unfold OperandStack.top?
  rcases Visit.opened_regs_eq how with hnil | hcons
  · exact .inl (by rw [hnil]; rfl)
  · exact .inr (by rw [hcons]; rfl)

/-- Below its top the stack on entry is that of the edge. -/
theorem Visit.Via.mem_tail {v : Visit} {e : Edge} (h : v.Via e) {r : Reg}
    (hr : r ∈ v.opened.regs.tail) : r ∈ e.stack.regs := by
  rw [h.opened] at hr
  cases hs : e.stack.regs with
  | nil => simp [OperandStack.top?, hs] at hr
  | cons q rest =>
    have hrest : r ∈ rest := by simpa [OperandStack.top?, hs] using hr
    exact List.mem_cons_of_mem q hrest

theorem Visit.lt_next {m : Method} {v : Visit} (how : (∃ e, v.Via e) ∨ v.Begins m)
    (h : ∀ r ∈ v.opened.regs.tail, r.index < v.first) {r : Reg} (hr : r ∈ v.opened.regs) :
    r.index < v.next := by
  rcases Visit.opened_regs_eq how with hnil | hcons
  · rw [hnil] at hr
    cases hr
  · have hnext : v.next = v.first + 1 := by
      unfold next OperandStack.top?
      rw [hcons]
      rfl
    rw [hcons] at hr
    rcases List.mem_cons.mp hr with rfl | hr
    · exact Nat.lt_of_lt_of_eq (Nat.lt_succ_self _) hnext.symm
    · exact Nat.lt_of_lt_of_eq (Nat.lt_succ_of_lt (h r hr)) hnext.symm

namespace Journal

structure Linked (m : Method) (j : Journal) : Prop where
  visited : ∀ v ∈ j.visits, ∃ b, j.walk.table.block? v.start = some b ∧ b.compiled = true ∧
    b.merge = v.opened.top? ∧ (b.last, b.handle) = (v.block.last, v.block.handle)
  entered : ∀ b ∈ j.walk.table.blocks, b.compiled = true → ∃ v ∈ j.visits, v.start = b.start
  distinct : (j.visits.map Visit.start).Nodup
  edges : ∀ e, e ∈ j.passed ∨ e ∈ j.pending ↔ ∃ v ∈ j.visits, e ∈ v.edges
  leads : ∀ e ∈ j.passed, ∀ b, j.walk.table.block? e.dest = some b → b.compiled = true
  carried : ∀ e ∈ j.passed, e.source < e.dest → ∀ v ∈ j.visits, v.start = e.dest →
    v.opened.top?.isSome = e.stack.top?.isSome
  chain : ∀ before v after, j.visits = before ++ v :: after →
    before = [] ∧ v.Begins m ∨ ∃ u ∈ before, ∃ e ∈ u.edges, e ∈ j.passed ∧ v.Via e

variable {c : Compiler} {x : ExternTable} {j j' : Journal}

theorem Linked.init {w : Walk} (blank : w.Blank c.method x) :
    Linked c.method { walk := w, pending := [] } where
  visited := by simp
  entered b hb hc := by
    rw [(blank.fresh b hb).1] at hc
    cases hc
  distinct := List.nodup_nil
  edges := by simp
  leads := by simp
  carried := by simp
  chain := by simp

theorem Linked.pass {e : Edge} {rest : List Edge} {w : Walk} (h : Linked c.method j)
    (next : j.pending = e :: rest) (passes : j.walk.Passes e w) :
    Linked c.method
      { walk := w, pending := rest, passed := j.passed ++ [e], visits := j.visits } where
  visited v hv := by
    rw [passes.table_eq]
    exact h.visited v hv
  entered b hb hc := by
    rw [passes.table_eq] at hb
    exact h.entered b hb hc
  distinct := h.distinct
  edges k := by
    rw [← h.edges k, next]
    simp [or_assoc]
  leads k hk b hb := by
    rw [passes.table_eq] at hb
    rcases List.mem_append.mp hk with hk | hk
    · exact h.leads k hk b hb
    · rw [List.mem_singleton.mp hk] at hb
      cases passes with
      | outside absent => rw [absent] at hb; cases hb
      | back found done => rw [found] at hb; cases hb; exact done
      | empty found done => rw [found] at hb; cases hb; exact done
      | value found done => rw [found] at hb; cases hb; exact done
  carried k hk forward v hv hs := by
    rcases List.mem_append.mp hk with hk | hk
    · exact h.carried k hk forward v hv hs
    · rw [List.mem_singleton.mp hk] at forward hs ⊢
      obtain ⟨b, hb, -, hmerge, -⟩ := h.visited v hv
      rw [hs] at hb
      rw [← hmerge]
      cases passes with
      | outside absent => rw [absent] at hb; cases hb
      | back _ _ backward => omega
      | empty found _ _ none merge =>
        rw [found] at hb
        cases hb
        rw [merge, none]
      | value found _ _ top merge =>
        rw [found] at hb
        cases hb
        rw [merge, top]
        rfl
  chain before v after hsplit := by
    rcases h.chain before v after hsplit with hfirst | ⟨u, hu, k, hk, hpassed, via⟩
    · exact .inl hfirst
    · exact .inr ⟨u, hu, k, hk, List.mem_append_left _ hpassed, via⟩

/-- The block of the table that a visit entered. -/
theorem Linked.exists_block {m : Method} (h : Linked m j) {v : Visit} (hv : v ∈ j.visits) :
    ∃ b ∈ j.walk.table.blocks, b.start = v.start ∧ b.last = v.block.last ∧ b.handle = v.handle := by
  obtain ⟨b, hb, -, -, hsite⟩ := h.visited v hv
  obtain ⟨hmem, hstart⟩ := BlockTable.of_block?_eq_some hb
  exact ⟨b, hmem, hstart, (Prod.mk.inj hsite).1, (Prod.mk.inj hsite).2⟩

/-- A block that is entered was not entered before, and no edge into it was followed. -/
theorem Linked.fresh {w : Walk} {v : Visit} {code : List Stmt} {term : Terminator}
    (h : Linked c.method j) (opens : j.walk.Opens c w v code term) :
    (∀ u ∈ j.visits, u.start ≠ v.start) ∧ ∀ e ∈ j.passed, e.dest ≠ v.start := by
  obtain ⟨b, hb, hc, -⟩ := opens.found
  constructor
  · intro u hu hs
    obtain ⟨k, hk, hkc, -⟩ := h.visited u hu
    rw [hs, hb] at hk
    cases hk
    rw [hc] at hkc
    cases hkc
  · intro e he hd
    have hdone := h.leads e he b (by rw [hd]; exact hb)
    rw [hc] at hdone
    cases hdone

theorem Linked.handle_ne {w : Walk} {u v : Visit} {code : List Stmt} {term : Terminator}
    (h : Linked c.method j) (divides : j.walk.table.Divides c.method)
    (opens : j.walk.Opens c w v code term) (hu : u ∈ j.visits) : u.handle ≠ v.handle := by
  intro hh
  obtain ⟨b, hbm, hbs, hbh⟩ := opens.exists_block
  obtain ⟨k, hkm, hks, -, hkh⟩ := h.exists_block hu
  have hhandle : k.handle = b.handle := hkh.trans (hh.trans hbh.symm)
  have : k = b := List.inj_on_of_nodup_map divides.handles hkm hbm hhandle
  exact (h.fresh opens).1 u hu (by rw [← hks, this, hbs])

/-- An edge leads to a block that was entered just where the table has its code for the edge. -/
theorem Linked.handle_eq_iff {p : Nat} {b : BasicBlock} (h : Linked c.method j)
    (divides : j.walk.table.Divides c.method) (found : j.walk.table.block? p = some b) {v : Visit}
    (hv : v ∈ j.visits) : v.handle = b.handle ↔ p = v.start := by
  obtain ⟨hb, hbs⟩ := BlockTable.of_block?_eq_some found
  obtain ⟨k, hk, hks, -, hkh⟩ := h.exists_block hv
  constructor
  · intro hh
    have : k = b := List.inj_on_of_nodup_map divides.handles hk hb (hkh.trans hh)
    rw [← hbs, ← this, hks]
  · intro hp
    have : k = b := List.inj_on_of_nodup_map divides.nodup hk hb (hks.trans (hbs.trans hp).symm)
    rw [← hkh, this]

/-- The edges of a longer list of visits. -/
theorem exists_mem_edges_concat {visits : List Visit} {v : Visit} {e : Edge} :
    (∃ u ∈ visits ++ [v], e ∈ u.edges) ↔ (∃ u ∈ visits, e ∈ u.edges) ∨ e ∈ v.edges := by
  simp only [List.mem_append, List.mem_singleton, or_and_right, exists_or, exists_eq_left]

/-- A visit in a longer list is the last, or stands in the shorter one. -/
theorem concat_eq_append_cons {visits before after : List Visit} {u v : Visit}
    (h : visits ++ [v] = before ++ u :: after) :
    visits = before ∧ v = u ∨ ∃ after', visits = before ++ u :: after' := by
  rcases List.eq_nil_or_concat after with rfl | ⟨after, k, rfl⟩
  · left
    obtain ⟨hbefore, hu⟩ := List.append_inj' h rfl
    exact ⟨hbefore, List.singleton_inj.mp hu⟩
  · right
    have h' : visits ++ [v] = (before ++ u :: after) ++ [k] := by
      rw [h]
      simp
    exact ⟨after, (List.append_inj' h' rfl).1⟩

/-- The block that is entered comes first, or an edge of an earlier block led to it. -/
theorem Linked.chain_enter {v : Visit} {rest : List Edge} (h : Linked c.method j)
    (next : j.pending = v.via.toList ++ rest)
    (how : (∃ e, v.Via e) ∨ j.visits = [] ∧ j.passed = [] ∧ rest = [] ∧ v.Begins c.method) :
    j.visits = [] ∧ v.Begins c.method ∨
      ∃ u ∈ j.visits, ∃ e ∈ u.edges, e ∈ j.passed ++ v.via.toList ∧ v.Via e := by
  rcases how with ⟨e, via⟩ | ⟨none, -, -, begins⟩
  · right
    have hmem : e ∈ v.via.toList := by
      rw [via.via]
      exact List.mem_singleton_self e
    have hpending : e ∈ j.pending := by
      rw [next]
      exact List.mem_append_left _ hmem
    obtain ⟨u, hu, heu⟩ := (h.edges e).mp (.inr hpending)
    exact ⟨u, hu, e, heu, List.mem_append_right _ hmem, via⟩
  · exact .inl ⟨none, begins⟩

theorem Linked.enter {v : Visit} {rest : List Edge} {w : Walk} {code : List Stmt}
    {term : Terminator} (h : Linked c.method j) (next : j.pending = v.via.toList ++ rest)
    (opens : j.walk.Opens c w v code term)
    (how : (∃ e, v.Via e) ∨ j.visits = [] ∧ j.passed = [] ∧ rest = [] ∧ v.Begins c.method) :
    Linked c.method
      { walk := w, pending := v.edges ++ rest, passed := j.passed ++ v.via.toList
        visits := j.visits ++ [v] } := by
  obtain ⟨hnew, hunled⟩ := h.fresh opens
  have came : ∀ e ∈ v.via.toList, v.Via e := fun e =>
    Visit.via_of_mem (how.imp_right fun hfirst => hfirst.2.2.2)
  have hself := j.walk.table.block?_modify_self v.start (f := v.close) fun _ => rfl
  have hother {p : Nat} (hp : v.start ≠ p) :=
    j.walk.table.block?_modify_of_ne (f := v.close) (fun _ => rfl) hp
  obtain ⟨b₀, hb₀, -, hsite₀⟩ := opens.found
  refine ⟨?_, ?_, ?_, ?_, ?_, ?_, ?_⟩
  · dsimp only
    rw [opens.table]
    refine List.forall_mem_append.mpr ⟨?_, List.forall_mem_singleton.mpr ?_⟩
    · intro u hu
      rw [hother (hnew u hu).symm]
      exact h.visited u hu
    · rw [hself, hb₀]
      exact ⟨_, rfl, rfl, rfl, hsite₀⟩
  · intro b hb hc
    obtain ⟨k, hk, rfl⟩ := opens.mem_blocks hb
    split at hc
    next hs =>
      rw [if_pos hs]
      exact ⟨v, List.mem_append_right _ (List.mem_singleton_self v), hs.symm⟩
    next hs =>
      rw [if_neg hs]
      obtain ⟨u, hu, hus⟩ := h.entered k hk hc
      exact ⟨u, List.mem_append_left _ hu, hus⟩
  · rw [List.map_append, List.nodup_append']
    refine ⟨h.distinct, List.nodup_singleton _, ?_⟩
    intro p hp hq
    obtain ⟨u, hu, rfl⟩ := List.mem_map.mp hp
    exact hnew u hu (by simpa using hq)
  · intro e
    dsimp only
    rw [exists_mem_edges_concat, ← h.edges e, next]
    simp only [List.mem_append]
    tauto
  · intro e he b hb
    dsimp only at hb
    rw [opens.table] at hb
    by_cases hd : v.start = e.dest
    · rw [← hd, hself, hb₀] at hb
      cases hb
      rfl
    · rw [hother hd] at hb
      rcases List.mem_append.mp he with he | he
      · exact h.leads e he b hb
      · exact absurd (came e he).start hd
  · intro e he forward u hu hs
    rcases List.mem_append.mp he with he | he
    · rcases List.mem_append.mp hu with hu | hu
      · exact h.carried e he forward u hu hs
      · rw [List.mem_singleton.mp hu] at hs
        exact absurd hs.symm (hunled e he)
    · have via := came e he
      rcases List.mem_append.mp hu with hu | hu
      · exact absurd (hs.trans via.start.symm) (hnew u hu)
      · rw [List.mem_singleton.mp hu]
        exact via.isSome_top?
  · intro before u after hsplit
    rcases concat_eq_append_cons hsplit with ⟨rfl, rfl⟩ | ⟨after', hold⟩
    · exact h.chain_enter next how
    · rcases h.chain before u after' hold with hfirst | ⟨w, hw, e, he, hpassed, via⟩
      · exact .inl hfirst
      · exact .inr ⟨w, hw, e, he, List.mem_append_left _ hpassed, via⟩

/-- So it is in every journal that a compilation comes to. -/
theorem Reached.linked (h : j.Reached c x) : Linked c.method j := by
  induction h with
  | init blank => exact .init blank
  | step _ hs ih =>
    cases hs with
    | pass next passes => exact ih.pass next passes
    | enter next opens how => exact ih.enter next opens how

/-- What the table notes of a block: nothing before it is entered, and then whether it joined a
value. -/
theorem Reached.noted (h : j.Reached c x) {p : Nat} {b : BasicBlock}
    (found : j.walk.table.block? p = some b) :
    (b.compiled = false ∧ b.merge = none ∧ b.pending = [] ∧ b.carries = none) ∨
      ∃ v ∈ j.visits, v.start = p ∧ v.handle = b.handle ∧ b.compiled = true ∧
        b.merge = v.opened.top? ∧ b.pending = [] ∧ b.carries = some v.opened.top?.isSome := by
  obtain ⟨hmem, hstart⟩ := BlockTable.of_block?_eq_some found
  cases hc : b.compiled with
  | false => exact .inl ⟨rfl, h.tidy.fresh b hmem hc⟩
  | true =>
    right
    obtain ⟨hpending, hcarries⟩ := h.tidy.known b hmem hc
    obtain ⟨v, hv, hs⟩ := h.linked.entered b hmem hc
    obtain ⟨k, hk, -, hmerge, hsite⟩ := h.linked.visited v hv
    rw [hs, hstart, found] at hk
    cases hk
    rw [hmerge] at hcarries
    exact ⟨v, hv, hs.trans hstart, (Prod.mk.inj hsite).2.symm, rfl, hmerge, hpending, hcarries⟩

namespace Linked

variable {m : Method}

/-- What holds of the first block, and of a block that is entered from one of which it holds, holds
of all. -/
theorem visit_induction (h : Linked m j) {P : Visit → Prop}
    (first : ∀ v ∈ j.visits, v.Begins m → P v)
    (next : ∀ u ∈ j.visits, ∀ e ∈ u.edges, e ∈ j.passed → ∀ v ∈ j.visits, v.Via e → P u → P v) :
    ∀ v ∈ j.visits, P v := by
  have all : ∀ after before, j.visits = before ++ after → (∀ u ∈ before, P u) →
      ∀ v ∈ j.visits, P v := by
    intro after
    induction after with
    | nil =>
      intro before hs hP v hv
      rw [hs, List.append_nil] at hv
      exact hP v hv
    | cons v after ih =>
      intro before hs hP
      have hv : v ∈ j.visits := by rw [hs]; simp
      have hPv : P v := by
        rcases h.chain before v after hs with ⟨-, begins⟩ | ⟨u, hu, e, he, hpassed, via⟩
        · exact first v hv begins
        · exact next u (by rw [hs]; exact List.mem_append_left _ hu) e he hpassed v hv via (hP u hu)
      apply ih (before ++ [v]) (by rw [hs]; simp)
      intro u hu
      rcases List.mem_append.mp hu with hu | hu
      · exact hP u hu
      · rw [List.mem_singleton.mp hu]
        exact hPv
  exact all j.visits [] rfl (by simp)

/-- The top of the stack on entry of a block is its phi. -/
theorem top?_eq (h : Linked m j) {v : Visit} (hv : v ∈ j.visits) :
    v.opened.top? = none ∨ v.opened.top? = some ⟨v.first⟩ := by
  obtain ⟨before, after, hs⟩ := List.append_of_mem hv
  apply Visit.top?_opened (m := m)
  rcases h.chain before v after hs with ⟨-, begins⟩ | ⟨-, -, e, -, -, via⟩
  · exact .inr begins
  · exact .inl ⟨e, via⟩

theorem eq_of_start_eq (h : Linked m j) {u v : Visit} (hu : u ∈ j.visits) (hv : v ∈ j.visits)
    (hs : u.start = v.start) : u = v :=
  List.inj_on_of_nodup_map h.distinct hu hv hs

/-- An edge that was followed into the code leads to a block that was entered. -/
theorem exists_visit (h : Linked m j) {e : Edge} (he : e ∈ j.passed) {target : BlockId}
    (ht : j.walk.table.handle? e.dest = some target) :
    ∃ v ∈ j.visits, v.start = e.dest ∧ v.handle = target := by
  obtain ⟨b, hb, rfl⟩ := Option.map_eq_some_iff.mp ht
  have hc := h.leads e he b hb
  obtain ⟨hmem, hstart⟩ := BlockTable.of_block?_eq_some hb
  obtain ⟨v, hv, hs⟩ := h.entered b hmem hc
  obtain ⟨k, hk, -, -, hsite⟩ := h.visited v hv
  rw [hs, hstart, hb] at hk
  cases hk
  exact ⟨v, hv, hs.trans hstart, (Prod.mk.inj hsite).2.symm⟩

theorem handle?_start (h : Linked m j) {v : Visit} (hv : v ∈ j.visits) :
    j.walk.table.handle? v.start = some v.handle := by
  obtain ⟨b, hb, -, -, hsite⟩ := h.visited v hv
  unfold BlockTable.handle?
  rw [hb]
  exact congrArg some (Prod.mk.inj hsite).2

/-- Different blocks have different register code. -/
theorem eq_of_handle_eq (h : Linked m j) (divides : j.walk.table.Divides m) {u v : Visit}
    (hu : u ∈ j.visits) (hv : v ∈ j.visits) (hh : u.handle = v.handle) : u = v := by
  obtain ⟨b, hb, hbs, -, hbh⟩ := h.exists_block hu
  obtain ⟨k, hk, hks, -, hkh⟩ := h.exists_block hv
  have : b = k := List.inj_on_of_nodup_map divides.handles hb hk (hbh.trans (hh.trans hkh.symm))
  exact h.eq_of_start_eq hu hv (by rw [← hbs, this, hks])

end Linked

end Journal

end StackFlow
