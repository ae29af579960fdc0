import StackFlow.Proofs.Lowering.Prologue
import StackFlow.Proofs.Walk.Enter

/-!
The steps of a compilation. An edge either enters its block or at most brings one more value to it
(`Walk.Passes`), and a compilation takes such steps from the walk that the prologue leaves
(`Walk.Blank`). Main statement: it takes no others (`reached_of_journal`), so that what every step
keeps holds of every compilation.
-/
namespace StackFlow

open IR (Reg Stmt Builder BlockId Func Terminator dests)

/-- What the edge notes in the table of a block that is still to be compiled. -/
def Edge.note (e : Edge) (b : BasicBlock) : BasicBlock :=
  if e.dest ≤ e.source then b
  else { b with carries := some e.stack.top?.isSome, pending := b.pending ++ e.joins }

theorem Edge.note_site (e : Edge) (b : BasicBlock) :
    ((e.note b).start, (e.note b).last, (e.note b).handle, (e.note b).compiled) =
      (b.start, b.last, b.handle, b.compiled) := by
  unfold note
  split <;> rfl

theorem Edge.note_pending (e : Edge) {b : BasicBlock} (h : b.pending = []) :
    (e.note b).pending = e.joins := by
  unfold note
  split
  next backward => rw [h, e.joins_backward backward]
  next => rw [h, List.nil_append]

/-- What the edge notes agrees with the stack that it brings. -/
theorem Edge.note_carries (e : Edge) {b : BasicBlock} (hp : b.pending = []) (hc : b.carries = none) :
    ∀ x ∈ (e.note b).carries, x = ((e.note b).pending ≠ [] ∨ e.entry.top?.isSome : Bool) := by
  intro x hx
  rw [e.note_pending hp, e.isSome_top?]
  unfold note at hx
  split at hx
  next => rw [hc] at hx; cases hx
  next => cases hx; rfl

/-- What following an edge does to the walk if it enters no block. -/
inductive Walk.Passes (w : Walk) (e : Edge) : Walk → Prop
  | outside (absent : w.table.block? e.dest = none) : Passes w e w
  | back {b : BasicBlock} (found : w.table.block? e.dest = some b) (done : b.compiled = true)
      (backward : e.dest ≤ e.source) : Passes w e w
  | empty {b : BasicBlock} (found : w.table.block? e.dest = some b) (done : b.compiled = true)
      (forward : e.source < e.dest) (none : e.stack.top? = none) (merge : b.merge = .none) :
      Passes w e w
  | value {b : BasicBlock} {phi r : Reg} {builder : Builder}
      (found : w.table.block? e.dest = some b) (done : b.compiled = true)
      (forward : e.source < e.dest) (top : e.stack.top? = some r) (merge : b.merge = some phi)
      (grown : w.builder.addPhiSource? b.handle phi (e.pred, r) = some builder) :
      Passes w e { w with builder }

/-- How the block at position 0 is entered. -/
structure Visit.Begins (v : Visit) (m : Method) : Prop where
  via : v.via = none
  start : v.start = 0
  entry : v.entry = ⟨[], m.stackMax⟩
  pending : v.block.pending = []
  opened : v.opened = ⟨[], m.stackMax⟩

/-- The walk before the first block. -/
structure Walk.Blank (m : Method) (x : ExternTable) (w : Walk) : Prop where
  divides : w.table.Divides m
  handles : ∀ b ∈ w.table.blocks, b.handle.index < w.builder.func.blocks.length
  fresh : ∀ b ∈ w.table.blocks, b.compiled = false ∧ b.merge = none ∧ b.pending = [] ∧
    b.carries = none
  inside : Func.entry.index < w.builder.func.blocks.length
  code : ∀ id, w.builder.func.code id = if id = Func.entry then Lowering.localsCode m else []
  exit : ∃ target, w.table.handle? 0 = some target ∧ w.builder.func.exit Func.entry = .jump target
  idle : ∀ id, id ≠ Func.entry → w.builder.func.exit id = .missing
  preds : ∀ id p, p ∈ w.builder.func.preds id ↔
    p = Func.entry ∧ id ∈ (w.builder.func.exit Func.entry).successors
  nodup : ∀ id, (w.builder.func.preds id).Nodup
  trap : w.trap = none
  stmts : w.builder.func.stmts.Perm (Lowering.localsCode m)
  bools : w.builder.func.bools = []
  frame : w.builder.func.frame = (m.params, m.locals)
  nextReg : w.builder.func.nextReg = m.locals
  externs : w.builder.externs = x

namespace Journal

/-- A step of a compilation: the first edge that is left is followed, or before all edges the block
at position 0 is entered. -/
inductive Step (c : Compiler) (j : Journal) : Journal → Prop
  | pass {e : Edge} {rest : List Edge} {w : Walk} (next : j.pending = e :: rest)
      (passes : j.walk.Passes e w) :
      Step c j { walk := w, pending := rest, passed := j.passed ++ [e], visits := j.visits }
  | enter {v : Visit} {rest : List Edge} {w : Walk} {code : List Stmt} {term : Terminator}
      (next : j.pending = v.via.toList ++ rest) (opens : j.walk.Opens c w v code term)
      (how : (∃ e, v.Via e) ∨ j.visits = [] ∧ j.passed = [] ∧ rest = [] ∧ v.Begins c.method) :
      Step c j { walk := w, pending := v.edges ++ rest, passed := j.passed ++ v.via.toList
                 visits := j.visits ++ [v] }

/-- The compilation can come to the journal. -/
inductive Reached (c : Compiler) (x : ExternTable) : Journal → Prop
  | init {w : Walk} (blank : w.Blank c.method x) : Reached c x { walk := w, pending := [] }
  | step {j j' : Journal} (before : Reached c x j) (step : j.Step c j') : Reached c x j'

end Journal

namespace Walk

theorem Passes.table_eq {w w' : Walk} {e : Edge} (h : w.Passes e w') : w'.table = w.table := by
  cases h <;> rfl

theorem Passes.length_eq {w w' : Walk} {e : Edge} (h : w.Passes e w') :
    w'.builder.func.blocks.length = w.builder.func.blocks.length := by
  cases h with
  | value _ _ _ _ _ grown => exact (Builder.addPhiSource?_eq_some grown).2.2.1
  | _ => rfl

theorem Blank.tidy {m : Method} {x : ExternTable} {w : Walk} (h : w.Blank m x) : w.Tidy m where
  divides := h.divides
  inside := h.handles
  fresh b hb _ := (h.fresh b hb).2
  known b hb hc := by
    rw [(h.fresh b hb).1] at hc
    cases hc

variable {c : Compiler} {w w' : Walk} {v : Visit} {code : List Stmt} {term : Terminator}

/-- The blocks after a visit: the one that it enters and the others. -/
theorem Opens.mem_blocks (h : w.Opens c w' v code term) {b : BasicBlock} (hb : b ∈ w'.table.blocks) :
    ∃ k ∈ w.table.blocks, b = if k.start = v.start then v.close k else k := by
  rw [h.table] at hb
  obtain ⟨k, hk, rfl⟩ := List.mem_map.mp hb
  exact ⟨k, hk, rfl⟩

theorem Opens.exists_block (h : w.Opens c w' v code term) :
    ∃ b ∈ w.table.blocks, b.start = v.start ∧ b.handle = v.handle := by
  obtain ⟨b, hb, -, hsite⟩ := h.found
  obtain ⟨hmem, hstart⟩ := BlockTable.of_block?_eq_some hb
  exact ⟨b, hmem, hstart, (Prod.mk.inj hsite).2⟩

theorem Opens.exists_handle (h : w.Opens c w' v code term) {b : BasicBlock}
    (hb : b ∈ w'.table.blocks) : ∃ k ∈ w.table.blocks, k.handle = b.handle := by
  obtain ⟨k, hk, rfl⟩ := h.mem_blocks hb
  refine ⟨k, hk, ?_⟩
  split <;> rfl

theorem Opens.sites_eq (h : w.Opens c w' v code term) : w'.table.sites = w.table.sites := by
  rw [h.table]
  exact BlockTable.sites_modify _ _ fun _ => rfl

theorem Opens.tidy (h : w.Opens c w' v code term) (tidy : w.Tidy c.method) :
    w'.Tidy c.method where
  divides := tidy.divides.of_sites h.sites_eq
  inside b hb := by
    obtain ⟨k, hk, hkb⟩ := h.exists_handle hb
    rw [← hkb]
    exact Nat.lt_of_lt_of_le (tidy.inside k hk) h.length
  fresh b hb hc := by
    obtain ⟨k, hk, rfl⟩ := h.mem_blocks hb
    split at hc
    · cases hc
    next hne =>
      rw [if_neg hne]
      exact tidy.fresh k hk hc
  known b hb hc := by
    obtain ⟨k, hk, rfl⟩ := h.mem_blocks hb
    split at hc
    next he =>
      rw [if_pos he]
      exact ⟨rfl, rfl⟩
    next hne =>
      rw [if_neg hne]
      exact tidy.known k hk hc

end Walk

theorem Journal.Reached.tidy {c : Compiler} {x : ExternTable} {j : Journal} (h : j.Reached c x) :
    j.walk.Tidy c.method := by
  induction h with
  | init blank => exact blank.tidy
  | step _ hs ih =>
    cases hs with
    | pass _ passes =>
      refine ⟨?_, ?_, ?_, ?_⟩
      · exact passes.table_eq ▸ ih.divides
      · rw [passes.table_eq, passes.length_eq]; exact ih.inside
      · rw [passes.table_eq]; exact ih.fresh
      · rw [passes.table_eq]; exact ih.known
    | enter _ opens _ => exact opens.tidy ih

namespace Compiler

variable {c : Compiler} {w w' : Walk} {edges : List Edge}

/-- An edge to a block that is not compiled yet only leaves its value there. -/
theorem arrive_fresh {e : Edge} {b : BasicBlock} {s : OperandStack} {w₁ : Walk}
    (tidy : w.Tidy c.method) (found : w.table.block? e.dest = some b) (fresh : b.compiled = false)
    (h : (w.arrive e).result = .ok (s, w₁)) :
    s = e.entry ∧ w₁ = { w with table := w.table.modify e.dest e.note } := by
  have hmem := BlockTable.of_block?_eq_some found
  obtain ⟨hmerge, hpending, hcarries⟩ := tidy.fresh b hmem.1 fresh
  unfold Walk.arrive at h
  unfold Edge.entry
  split at h
  next backward =>
    cases h
    rw [if_pos backward]
    refine ⟨rfl, ?_⟩
    rw [BlockTable.modify_eq_self]
    intro k _ _
    exact if_pos backward
  next forward =>
    rw [if_neg forward]
    have hnote (k : BasicBlock) : e.note k =
        { k with carries := some e.stack.top?.isSome, pending := k.pending ++ e.joins } :=
      if_neg forward
    have hjoins : e.joins = e.stack.top?.toList.map (e.pred, ·) := if_neg forward
    rw [found] at h
    dsimp only at h
    rw [hcarries] at h
    rw [if_neg (by simp)] at h
    cases ht : e.stack.top? with
    | none =>
      rw [ht] at h
      dsimp only at h
      cases h
      have hnil : e.stack.regs = [] := by simpa [OperandStack.top?] using ht
      refine ⟨?_, ?_⟩
      · unfold OperandStack.dropTop
        rw [hnil, List.tail_nil, ← hnil]
      · congr 1
        apply BlockTable.modify_congr
        intro k _ _
        rw [hnote, hjoins, ht]
        simp
    | some v =>
      rw [ht] at h
      obtain ⟨w₂, h₁, h₂⟩ := Traced.result_bind_eq_ok h
      obtain ⟨_, -, h₃⟩ := Traced.result_bind_eq_ok h₂
      cases h₃
      refine ⟨rfl, ?_⟩
      have hd : ({ w with table := w.table.modify e.dest fun k =>
          { k with carries := some true } } : Walk).deliver b e v = .ok w₁ := h₁
      unfold Walk.deliver at hd
      rw [hmerge] at hd
      dsimp only at hd
      rw [if_neg (by simp [fresh])] at hd
      cases hd
      rw [BlockTable.modify_modify]
      · congr 1
        apply BlockTable.modify_congr
        intro k _ _
        rw [hnote, hjoins, ht]
        simp
      · exact fun _ => rfl

/-- An edge out of the code leaves the walk as it is. -/
theorem arrive_outside {e : Edge} {s : OperandStack} (absent : w.table.block? e.dest = none)
    (h : (w.arrive e).result = .ok (s, w')) : w' = w := by
  unfold Walk.arrive at h
  rw [absent] at h
  split at h <;> cases h <;> rfl

/-- An edge to a compiled block leaves the table as it is. -/
theorem passes_of_arrive {e : Edge} {b : BasicBlock} {s : OperandStack}
    (tidy : w.Tidy c.method) (found : w.table.block? e.dest = some b) (done : b.compiled = true)
    (h : (w.arrive e).result = .ok (s, w')) :
    w.Passes e w' ∧ w'.table = w.table := by
  have hmem := BlockTable.of_block?_eq_some found
  obtain ⟨hpending, hcarries⟩ := tidy.known b hmem.1 done
  unfold Walk.arrive at h
  split at h
  next backward =>
    cases h
    exact ⟨.back found done backward, rfl⟩
  next forward =>
    rw [found] at h
    dsimp only at h
    rw [hcarries] at h
    split at h
    · cases h
    next hsame =>
      have hcarried : b.merge.isSome = e.stack.top?.isSome := by simpa using hsame
      have htable : w.table.modify e.dest (fun k =>
          { k with carries := some e.stack.top?.isSome }) = w.table := by
        apply BlockTable.modify_eq_self
        intro k hk hks
        obtain rfl : k = b :=
          Option.some.inj (((BlockTable.block?_eq_some_iff tidy.divides.nodup).mpr
            ⟨hk, hks⟩).symm.trans found)
        rw [← hcarried, ← hcarries]
      rw [htable] at h
      cases ht : e.stack.top? with
      | none =>
        rw [ht] at h
        cases h
        rw [ht] at hcarried
        exact ⟨.empty found done (Nat.lt_of_not_le forward) ht (by simpa using hcarried), rfl⟩
      | some v =>
        rw [ht] at h
        obtain ⟨w₂, h₁, h₂⟩ := Traced.result_bind_eq_ok h
        obtain ⟨_, -, h₃⟩ := Traced.result_bind_eq_ok h₂
        cases h₃
        have hd : w.deliver b e v = .ok w' := h₁
        unfold Walk.deliver at hd
        split at hd
        next phi hphi =>
          split at hd
          next builder hb =>
            cases hd
            exact ⟨.value found done (Nat.lt_of_not_le forward) ht hphi hb, rfl⟩
          next => cases hd
        next hnone =>
          rw [hnone, ht] at hcarried
          cases hcarried

/-- Where there is nothing to compile, entering a block does nothing. -/
theorem enter_of_done {start : Nat} (s : OperandStack) {w : Walk}
    (done : (w.table.block? start).all (·.compiled) = true) : c.enter start s w = pure (w, []) := by
  unfold enter
  cases hb : w.table.block? start with
  | none => rfl
  | some b =>
    rw [hb, Option.all_some] at done
    dsimp only
    rw [if_pos done]

/-- An entry with nothing to compile is not noted. -/
theorem visit?_of_done {start : Nat} {s : OperandStack} {via : Option Edge}
    (done : (w.table.block? start).all (·.compiled) = true) :
    w.visit? via start s edges = none := by
  unfold Walk.visit?
  cases hb : w.table.block? start with
  | none => rfl
  | some b =>
    rw [hb, Option.all_some] at done
    exact if_pos done

/-- A step that follows an edge does nothing else. -/
theorem step_of_advance (standard : c.lowering = .standard) {j j' : Journal} {e : Edge}
    {rest : List Edge} (tidy : j.walk.Tidy c.method) (hp : j.pending = e :: rest)
    (h : c.advance j = .ok j') : j.Step c j' := by
  unfold advance at h
  rw [hp] at h
  obtain ⟨⟨s, w₁⟩, ha, h₁⟩ := bind_eq_ok h
  obtain ⟨⟨w₂, edges⟩, he, h₂⟩ := bind_eq_ok h₁
  dsimp only at he h₂
  cases h₂
  cases hb : j.walk.table.block? e.dest with
  | none =>
    obtain rfl := arrive_outside hb ha
    have done : (j.walk.table.block? e.dest).all (·.compiled) = true := by rw [hb]; rfl
    rw [enter_of_done s done] at he
    cases he
    rw [visit?_of_done done]
    simpa using Journal.Step.pass hp (.outside hb)
  | some b =>
    cases hc : b.compiled with
    | true =>
      obtain ⟨hpasses, ht⟩ := passes_of_arrive tidy hb hc ha
      have done : (w₁.table.block? e.dest).all (·.compiled) = true := by rw [ht, hb]; exact hc
      rw [enter_of_done s done] at he
      cases he
      rw [visit?_of_done done]
      simpa using Journal.Step.pass hp hpasses
    | false =>
      obtain ⟨rfl, rfl⟩ := arrive_fresh tidy hb hc ha
      have hmem := BlockTable.of_block?_eq_some hb
      obtain ⟨-, hpending, hcarries⟩ := tidy.fresh b hmem.1 hc
      have hjoined := e.note_pending hpending
      obtain ⟨v, code, term, hv, hopens, hblock, hstart, hvia, hentry, rfl, hmax, hregs⟩ :=
        opens_of_enter standard (some e) tidy hb hc e.note_site
          (e.note_carries hpending hcarries) he
      rw [hjoined, e.opened_regs] at hregs
      have via : v.Via e := by
        refine ⟨hvia, hstart, hentry, ?_, ?_⟩
        · rw [hblock, hjoined]
        · have hopened : v.opened = ⟨v.opened.regs, v.opened.max⟩ := rfl
          rw [hopened, hregs, hmax, e.entry_max]
      have hnext : j.pending = v.via.toList ++ rest := by
        rw [hp, hvia]
        rfl
      have hstep := Journal.Step.enter hnext hopens (.inl ⟨e, via⟩)
      rw [hvia] at hstep
      rw [hv]
      exact hstep

/-- The builder once the blocks are allotted, all of them empty. -/
private theorem builder_of_allot (c : Compiler) (x : ExternTable) :
    let start := Builder.start c.method.name c.method.params c.method.locals x
    let blocks := (BlockTable.allot c.method.length c.method.blockStarts start).1
    let b := (BlockTable.allot c.method.length c.method.blockStarts start).2
    (∀ k ∈ blocks, k.handle.index < b.func.blocks.length) ∧
      Func.entry.index < b.func.blocks.length ∧ b.current = Func.entry ∧ b.func.nextReg = 0 ∧
      b.externs = x ∧ (∀ id, b.func.block id = {}) ∧ b.func.stmts = [] ∧ b.func.bools = [] ∧
      b.func.frame = (c.method.params, c.method.locals) := by
  intro start blocks b
  obtain ⟨-, -, hhandles, -, hb⟩ :=
    BlockTable.allot_spec c.method.length c.method.blockStarts start
  have hblocks : b.func.blocks = List.replicate (1 + c.method.blockStarts.length) {} := by
    refine (congrArg (·.func.blocks) hb).trans ?_
    rw [← List.replicate_append_replicate]
    rfl
  have hlen : b.func.blocks.length = 1 + c.method.blockStarts.length := by
    rw [hblocks, List.length_replicate]
  refine ⟨?_, ?_, ?_, ?_, ?_, ?_, ?_, ?_, ?_⟩
  · intro k hk
    have hm : k.handle ∈ blocks.map (·.handle) := List.mem_map_of_mem hk
    rw [hhandles] at hm
    obtain ⟨i, hi, he⟩ := List.mem_map.mp hm
    rw [← he, hlen]
    exact (List.mem_range'_1.mp hi).2
  · rw [hlen]
    exact Nat.lt_of_lt_of_le Nat.one_pos (Nat.le_add_right _ _)
  · exact congrArg (·.current) hb
  · exact congrArg (·.func.nextReg) hb
  · exact congrArg (·.externs) hb
  · intro id
    unfold Func.block
    rw [hblocks, List.getD_eq_getElem?_getD, List.getElem?_replicate]
    split <;> rfl
  · unfold Func.stmts
    rw [hblocks, List.flatMap_eq_nil_iff]
    intro k hk
    rw [List.eq_of_mem_replicate hk]
  · exact congrArg (·.func.bools) hb
  · exact congrArg (·.func.frame) hb

theorem blank_of_prologue (standard : c.lowering = .standard) {x : ExternTable}
    (h : (c.prologue x).result = .ok w) : w.Blank c.method x := by
  unfold prologue at h
  obtain ⟨_, -, h₁⟩ := Traced.result_bind_eq_ok h
  obtain ⟨_, -, h₂⟩ := Traced.result_bind_eq_ok h₁
  obtain ⟨⟨u, d⟩, he, h₃⟩ := Traced.result_bind_eq_ok h₂
  obtain ⟨first, hf, h₄⟩ := Traced.result_bind_eq_ok h₃
  cases h₄
  obtain ⟨b', hrun, rfl⟩ := Draft.emit_eq_ok he
  rw [standard] at hrun
  clear h h₁ h₂ h₃ he
  have hdivides := BlockTable.divides_ofStarts c.method
    (b := Builder.start c.method.name c.method.params c.method.locals x) Nat.one_pos
  obtain ⟨-, -, -, hfresh, -⟩ := BlockTable.allot_spec c.method.length c.method.blockStarts
    (Builder.start c.method.name c.method.params c.method.locals x)
  obtain ⟨hhandles, hinside, hcurrent, hnext, hexterns, hempty, hnone, hbools, hframe⟩ :=
    builder_of_allot c x
  unfold BlockTable.ofStarts at hdivides
  generalize BlockTable.allot c.method.length c.method.blockStarts _ = p at *
  obtain ⟨blocks, b⟩ := p
  dsimp only at *
  obtain rfl := Lowering.locals_of_run hnext hrun
  -- the prologue fills the entry as a block is filled that is entered
  have hin : b.current.index < b.func.blocks.length := by
    rw [hcurrent]
    exact hinside
  have ends := (Draft.Grows.refl (Draft.append ⟨b, none⟩ (Lowering.localsCode c.method))).ends hin
    (.jump first)
  have hjump := ends.exit Func.entry hinside
  rw [if_pos hcurrent.symm] at hjump
  have hfirst : first.index < b.func.blocks.length := by
    obtain ⟨k, hk, rfl⟩ := Option.map_eq_some_iff.mp (BlockTable.handle_eq_ok hf)
    exact hhandles k (BlockTable.of_block?_eq_some hk).1
  have hpreds (id : BlockId) : b.func.preds id = [] := congrArg (·.preds) (hempty id)
  exact {
    divides := hdivides
    handles := fun k hk => Nat.lt_of_lt_of_le (hhandles k hk) ends.length
    fresh := fun k hk => by
      obtain ⟨h₁, h₂, h₃, h₄⟩ := hfresh k hk
      exact ⟨h₃, h₁, h₂, h₄⟩
    inside := Nat.lt_of_lt_of_le hinside ends.length
    code := fun id => by
      refine (ends.filled id).trans ?_
      dsimp only
      rw [hcurrent, Func.code, hempty]
      rfl
    exit := ⟨first, BlockTable.handle_eq_ok hf, hjump⟩
    idle := fun id hid => by
      by_cases hlt : id.index < b.func.blocks.length
      · refine (ends.exit id hlt).trans ?_
        dsimp only
        rw [hcurrent, if_neg hid]
        exact congrArg (·.terminator) (hempty id)
      · exact ends.idle id (Nat.le_of_not_lt hlt) (Option.some_ne_none id).symm
    preds := fun id p => by
      have hleads := congrArg (id ∈ Terminator.successors ·) hjump
      refine (ends.preds id p).trans (Iff.trans ?_ (and_congr_right fun _ => hleads.symm.to_iff))
      dsimp only
      rw [hpreds, hcurrent, Terminator.successors, List.mem_singleton]
      constructor
      · rintro (hp | ⟨rfl, hid, -⟩)
        · cases hp
        · exact ⟨rfl, hid⟩
      · rintro ⟨rfl, rfl⟩
        exact .inr ⟨rfl, rfl, Nat.lt_of_lt_of_le hfirst ends.length⟩
    nodup := fun id => by
      refine ends.nodup id ?_
      dsimp only
      rw [hpreds]
      exact List.nodup_nil
    trap := rfl
    stmts := by
      refine ends.stmts.trans ?_
      dsimp only
      rw [hnone]
      exact .refl _
    bools := by
      refine ends.bools.trans ?_
      dsimp only
      rw [hbools, Lowering.localsCode_boolDest?]
      rfl
    frame := ends.frame.trans hframe
    nextReg := by
      refine ends.nextReg.trans ?_
      dsimp only
      rw [hnext, Lowering.dests_localsCode]
      simp
    externs := hexterns }

theorem reached_of_begin (standard : c.lowering = .standard) {x : ExternTable} {j : Journal}
    (h : c.begin x = .ok j) : j.Reached c x ∧ j.visits ≠ [] := by
  obtain ⟨w, hw, h₁⟩ := bind_eq_ok h
  obtain ⟨⟨w₁, edges⟩, he, h₂⟩ := bind_eq_ok h₁
  cases h₂
  have blank := blank_of_prologue standard hw
  obtain ⟨target, hfirst, -⟩ := blank.exit
  obtain ⟨b, hb, -⟩ := Option.map_eq_some_iff.mp hfirst
  have hmem := BlockTable.of_block?_eq_some hb
  obtain ⟨hc, -, hpending, hcarries⟩ := blank.fresh b hmem.1
  have hsame : w.table.modify 0 id = w.table := BlockTable.modify_eq_self fun _ _ _ => rfl
  obtain ⟨v, code, term, hv, hopens, hblock, hstart, hvia, hentry, rfl, hmax, hregs⟩ :=
    opens_of_enter (g := id) standard none blank.tidy hb hc (fun _ => rfl)
      (fun x hx => by rw [id, hcarries] at hx; cases hx) (by rw [hsame]; exact he)
  rw [hsame] at hv
  rw [hv]
  have hblank : v.block.pending = [] := by rw [hblock]; exact hpending
  have hopened : v.opened = ⟨[], c.method.stackMax⟩ := by
    have hsplit : v.opened = ⟨v.opened.regs, v.opened.max⟩ := rfl
    rw [hsplit, hregs, hmax, id, if_pos hpending]
    rfl
  have begins : v.Begins c.method := ⟨hvia, hstart, hentry, hblank, hopened⟩
  have hnext : ([] : List Edge) = v.via.toList ++ [] := by rw [hvia]; rfl
  have hstep := Journal.Step.enter (j := { walk := w, pending := [] }) hnext hopens
    (.inr ⟨rfl, rfl, rfl, begins⟩)
  rw [hvia] at hstep
  exact ⟨.step (.init blank) hstep, List.cons_ne_nil _ _⟩

/-- A compilation takes such steps and no others. -/
theorem reached_of_journal (standard : c.lowering = .standard) {x : ExternTable} {j : Journal}
    (h : c.journal x = .ok j) : (j.Reached c x ∧ j.visits ≠ []) ∧ j.pending = [] := by
  apply journal_induction (fun _ => reached_of_begin standard) ?_ h
  rintro j j' e rest hp hs ⟨hj, hne⟩
  have hstep := step_of_advance standard hj.tidy hp hs
  refine ⟨.step hj hstep, ?_⟩
  cases hstep with
  | pass => exact hne
  | enter => exact List.append_ne_nil_of_left_ne_nil hne _

end Compiler

end StackFlow
