import Mathlib.Data.List.Pairwise
import StackFlow.IR.Builder

/-!
What building does to a function: code is appended to the current block, its results are numbered
onwards from the first free register, and a block is given its end. Three views of a function tell
of a block what it does and where control comes from: its statements, its terminator and its
predecessors.
-/
namespace StackFlow.IR

/-- The register that a comparison defines. -/
def Stmt.boolDest? : Stmt → Option Reg
  | eq d _ _ | ne d _ _ => some d
  | _ => none

/-- Registers that the code defines, in its order. -/
def dests (code : List Stmt) : List Reg := code.filterMap Stmt.dest?

@[simp] theorem dests_nil : dests [] = [] := rfl

@[simp] theorem dests_append (c d : List Stmt) : dests (c ++ d) = dests c ++ dests d :=
  List.filterMap_append

/-- Of the statements only one defines a register. -/
theorem eq_of_dest {code : List Stmt} (single : (dests code).Nodup) {s t : Stmt} (hs : s ∈ code)
    (ht : t ∈ code) {r : Reg} (hsr : s.dest? = some r) (htr : t.dest? = some r) : s = t := by
  have apart := List.pairwise_filterMap.mp single
  have : Std.Symm fun a b : Stmt => ∀ p, a.dest? = some p → ∀ q, b.dest? = some q → p ≠ q :=
    ⟨fun _ _ hab q hq p hp hqp => hab p hp q hq hqp.symm⟩
  by_contra hne
  exact apart.forall hs ht hne r hsr r htr rfl

/-- More sources for a phi change nothing that is read of statements apart from the sources. -/
theorem filterMap_addSource {α : Type} {F : Stmt → Option α}
    (keep : ∀ d sources sources', F (.phi d sources) = F (.phi d sources')) (phi : Reg)
    (source : BlockId × Reg) (code : List Stmt) :
    (Stmt.addSource phi source code).filterMap F = code.filterMap F := by
  fun_induction Stmt.addSource phi source code with
  | case1 => rfl
  | case2 sources rest => rw [List.filterMap_cons, List.filterMap_cons, keep phi _ sources]
  | case3 d sources rest _ ih => rw [List.filterMap_cons, List.filterMap_cons, ih]
  | case4 s rest _ ih => rw [List.filterMap_cons, List.filterMap_cons, ih]

theorem dests_addSource (phi : Reg) (source : BlockId × Reg) (code : List Stmt) :
    dests (Stmt.addSource phi source code) = dests code :=
  filterMap_addSource (fun _ _ _ => rfl) phi source code

/-- The code defines the registers from number `n` on, one after the other. -/
def Numbered (n : Nat) (code : List Stmt) : Prop :=
  dests code = (List.range' n (dests code).length).map Reg.mk

theorem Numbered.append {n : Nat} {c d : List Stmt} (hc : Numbered n c)
    (hd : Numbered (n + (dests c).length) d) : Numbered n (c ++ d) := by
  unfold Numbered at *
  rw [dests_append, List.length_append, ← List.range'_append_1, List.map_append, ← hc, ← hd]

theorem Numbered.nil (n : Nat) : Numbered n [] := rfl

theorem Numbered.bounds {n : Nat} {code : List Stmt} (h : Numbered n code) {r : Reg}
    (hr : r ∈ dests code) : n ≤ r.index ∧ r.index < n + (dests code).length := by
  rw [h] at hr
  obtain ⟨i, hi, rfl⟩ := List.mem_map.mp hr
  exact List.mem_range'_1.mp hi

theorem Numbered.nodup {n : Nat} {code : List Stmt} (h : Numbered n code) : (dests code).Nodup := by
  rw [h, List.nodup_iff_pairwise_ne, List.pairwise_map]
  exact (List.nodup_range' _).imp fun hne hik => hne (congrArg Reg.index hik)

namespace Builder

/-- Adds code to the current block; its results are the next free registers. -/
def append (b : Builder) (code : List Stmt) : Builder :=
  { b with func := { b.func.modifyBlock b.current (fun k => { k with stmts := k.stmts ++ code }) with
      nextReg := b.func.nextReg + (dests code).length
      bools := b.func.bools ++ code.filterMap Stmt.boolDest? } }

@[simp] theorem append_nil (b : Builder) : b.append [] = b := by
  have h : (fun k : Block => { k with stmts := k.stmts ++ [] }) = id := by
    funext k
    simp
  simp only [append, Func.modifyBlock, h, List.modify_id]
  simp

@[simp] theorem append_append (b : Builder) (c d : List Stmt) :
    (b.append c).append d = b.append (c ++ d) := by
  simp [append, Func.modifyBlock, List.modify_modify_eq, Function.comp_def, List.append_assoc,
    Nat.add_assoc]

@[simp] theorem append_current (b : Builder) (c : List Stmt) : (b.append c).current = b.current :=
  rfl

@[simp] theorem append_externs (b : Builder) (c : List Stmt) : (b.append c).externs = b.externs :=
  rfl

@[simp] theorem append_nextReg (b : Builder) (c : List Stmt) :
    (b.append c).func.nextReg = b.func.nextReg + (dests c).length := rfl

@[simp] theorem append_length (b : Builder) (c : List Stmt) :
    (b.append c).func.blocks.length = b.func.blocks.length := by
  simp [append]

/-- Next free register. -/
def free (b : Builder) : Reg := ⟨b.func.nextReg⟩

theorem define_value (b : Builder) {stmt : Reg → Stmt} (hd : (stmt b.free).dest? = some b.free)
    (hb : (stmt b.free).boolDest? = none) :
    b.define .value stmt = (b.free, b.append [stmt b.free]) := by
  simp only [free] at hd hb
  simp [define, newReg, write, append, dests, free, hd, hb, Func.modifyBlock]

theorem define_bool (b : Builder) {stmt : Reg → Stmt} (hd : (stmt b.free).dest? = some b.free)
    (hb : (stmt b.free).boolDest? = some b.free) :
    b.define .bool stmt = (b.free, b.append [stmt b.free]) := by
  simp only [free] at hd hb
  simp [define, newReg, write, append, dests, free, hd, hb, Func.modifyBlock]

theorem storeLocal_eq_append (b : Builder) (i : Nat) (v : Reg) :
    b.storeLocal i v = b.append [.storeLocal i v] := by
  simp [storeLocal, write, append, dests, Stmt.dest?, Stmt.boolDest?, Func.modifyBlock]

theorem const_eq_append (b : Builder) (w : Word) :
    b.const w = (b.free, b.append [.const b.free w]) := b.define_value rfl rfl

theorem receiver_eq_append (b : Builder) :
    b.receiver = (b.free, b.append [.receiver b.free]) := b.define_value rfl rfl

theorem arg_eq_append (b : Builder) (i : Nat) :
    b.arg i = (b.free, b.append [.arg b.free i]) := b.define_value rfl rfl

theorem loadLocal_eq_append (b : Builder) (i : Nat) :
    b.loadLocal i = (b.free, b.append [.loadLocal b.free i]) := b.define_value rfl rfl

theorem and_eq_append (b : Builder) (l r : Reg) :
    b.and l r = (b.free, b.append [.and b.free l r]) := b.define_value rfl rfl

theorem eq_eq_append (b : Builder) (l r : Reg) :
    b.eq l r = (b.free, b.append [.eq b.free l r]) := b.define_bool rfl rfl

theorem ne_eq_append (b : Builder) (l r : Reg) :
    b.ne l r = (b.free, b.append [.ne b.free l r]) := b.define_bool rfl rfl

theorem phi_eq_append (b : Builder) (sources : List (BlockId × Reg)) :
    b.phi sources = (b.free, b.append [.phi b.free sources]) := b.define_value rfl rfl

theorem call?_eq_some {b b' : Builder} {callee : String} {args : List Reg} {r : Reg}
    (h : b.call? callee args = some (r, b')) :
    (∃ e, b.externs.resolve? callee args.length = some e) ∧ r = b.free ∧
      b' = b.append [.call b.free callee args] := by
  obtain ⟨e, he, hd⟩ := Option.map_eq_some_iff.mp h
  rw [b.define_value rfl rfl] at hd
  cases hd
  exact ⟨⟨e, he⟩, rfl, rfl⟩

end Builder

namespace Func

def code (f : Func) (b : BlockId) : List Stmt := (f.block b).stmts

def exit (f : Func) (b : BlockId) : Terminator := (f.block b).terminator

def preds (f : Func) (b : BlockId) : List BlockId := (f.block b).preds

/-- Number of parameters and of locals. -/
def frame (f : Func) : Nat × Nat := (f.params, f.locals)

theorem block_modifyBlock (f : Func) (b c : BlockId) (g : Block → Block) :
    (f.modifyBlock b g).block c =
      if c = b ∧ b.index < f.blocks.length then g (f.block c) else f.block c := by
  by_cases h : c = b
  · subst h
    by_cases inside : c.index < f.blocks.length
    · rw [if_pos ⟨rfl, inside⟩, block_modifyBlock_self f g inside]
    · rw [if_neg (fun hc => inside hc.2)]
      simp [block, modifyBlock, List.getD_eq_getElem?_getD, inside]
  · rw [if_neg (fun hc => h hc.1), block_modifyBlock_of_ne f g (Ne.symm h)]

theorem code_of_le (f : Func) {b : BlockId} (outside : f.blocks.length ≤ b.index) :
    f.code b = [] := by
  simp [code, block, List.getD_eq_getElem?_getD, List.getElem?_eq_none outside]

theorem exit_of_le (f : Func) {b : BlockId} (outside : f.blocks.length ≤ b.index) :
    f.exit b = .missing := by
  simp [exit, block, List.getD_eq_getElem?_getD, List.getElem?_eq_none outside]

theorem mem_stmts {f : Func} {s : Stmt} : s ∈ f.stmts ↔ ∃ b, s ∈ f.code b := by
  unfold stmts code block
  rw [List.mem_flatMap]
  constructor
  · rintro ⟨k, hk, hs⟩
    obtain ⟨i, hi, rfl⟩ := List.mem_iff_getElem.mp hk
    exact ⟨⟨i⟩, by simpa [List.getD_eq_getElem?_getD, hi] using hs⟩
  · rintro ⟨b, hs⟩
    by_cases inside : b.index < f.blocks.length
    · rw [List.getD_eq_getElem?_getD, List.getElem?_eq_getElem inside] at hs
      exact ⟨_, List.getElem_mem inside, hs⟩
    · rw [List.getD_eq_getElem?_getD, List.getElem?_eq_none (by omega)] at hs
      cases hs

/-- What is read of all blocks stays, if changing one of them keeps it. -/
theorem flatMap_modifyBlock {α : Type} (f : Func) (b : BlockId) {g : Block → Block}
    {F : Block → List α} (keep : ∀ k, F (g k) = F k) :
    (f.modifyBlock b g).blocks.flatMap F = f.blocks.flatMap F := by
  have key : ∀ (l : List Block) (i : Nat), (l.modify i g).flatMap F = l.flatMap F := by
    intro l
    induction l with
    | nil => intro i; cases i <;> rfl
    | cons k l ih =>
      intro i
      cases i with
      | zero => simp [keep]
      | succ i => simp [ih i]
  exact key f.blocks b.index

theorem stmts_modifyBlock (f : Func) (b : BlockId) {g : Block → Block}
    (keep : ∀ k, (g k).stmts = k.stmts) : (f.modifyBlock b g).stmts = f.stmts :=
  f.flatMap_modifyBlock b keep

/-- Noting a predecessor leaves the first two views as they are. -/
theorem block_addPred (f : Func) (b c p : BlockId) :
    (f.modifyBlock b (·.addPred p)).code c = f.code c ∧
      (f.modifyBlock b (·.addPred p)).exit c = f.exit c := by
  unfold code exit
  rw [block_modifyBlock]
  split
  · unfold Block.addPred
    split <;> exact ⟨rfl, rfl⟩
  · exact ⟨rfl, rfl⟩

theorem preds_addPred (f : Func) (b c p : BlockId) :
    (∀ q, q ∈ (f.modifyBlock b (·.addPred p)).preds c ↔
      q ∈ f.preds c ∨ q = p ∧ c = b ∧ b.index < f.blocks.length) ∧
    ((f.preds c).Nodup → ((f.modifyBlock b (·.addPred p)).preds c).Nodup) := by
  unfold preds
  rw [block_modifyBlock]
  split
  next here =>
    unfold Block.addPred
    split
    next known =>
      refine ⟨fun q => ⟨.inl, ?_⟩, id⟩
      rintro (h | ⟨rfl, -⟩)
      · exact h
      · exact known
    next new =>
      refine ⟨fun q => by simp [here], fun h => List.nodup_append.mpr ⟨h, by simp, ?_⟩⟩
      intro a ha k hk
      rw [List.mem_singleton.mp hk]
      exact fun he => new (he ▸ ha)
  next elsewhere =>
    refine ⟨fun q => ⟨.inl, ?_⟩, id⟩
    rintro (h | ⟨-, h⟩)
    · exact h
    · exact absurd h elsewhere

/-- Notes the block as a predecessor of each of the others. -/
def notePred (f : Func) (p : BlockId) (bs : List BlockId) : Func :=
  bs.foldl (fun f b => f.modifyBlock b (·.addPred p)) f

/-- Only predecessors are noted. -/
theorem notePred_spec (f : Func) (p : BlockId) (bs : List BlockId) :
    (∀ c, (f.notePred p bs).code c = f.code c ∧ (f.notePred p bs).exit c = f.exit c) ∧
      (f.notePred p bs).blocks.length = f.blocks.length ∧
      (f.notePred p bs).nextReg = f.nextReg ∧ (f.notePred p bs).bools = f.bools ∧
      (f.notePred p bs).stmts = f.stmts ∧ (f.notePred p bs).frame = f.frame := by
  induction bs generalizing f with
  | nil => exact ⟨fun _ => ⟨rfl, rfl⟩, rfl, rfl, rfl, rfl, rfl⟩
  | cons b bs ih =>
    obtain ⟨hv, hl, hn, hb, hs, hf⟩ := ih (f.modifyBlock b (·.addPred p))
    refine ⟨fun c => ?_, hl.trans (by simp), hn, hb, hs.trans ?_, hf⟩
    · have hp := f.block_addPred b c p
      exact ⟨(hv c).1.trans hp.1, (hv c).2.trans hp.2⟩
    · apply stmts_modifyBlock
      intro k
      unfold Block.addPred
      split <;> rfl

theorem mem_notePred (f : Func) (p : BlockId) (bs : List BlockId) (c : BlockId) :
    (∀ q, q ∈ (f.notePred p bs).preds c ↔
      q ∈ f.preds c ∨ q = p ∧ c ∈ bs ∧ c.index < f.blocks.length) ∧
    ((f.preds c).Nodup → ((f.notePred p bs).preds c).Nodup) := by
  induction bs generalizing f with
  | nil => exact ⟨fun q => by simp [notePred], id⟩
  | cons b bs ih =>
    obtain ⟨hfirst, hkeep⟩ := f.preds_addPred b c p
    obtain ⟨hrest, hkeeps⟩ := ih (f.modifyBlock b (·.addPred p))
    refine ⟨fun q => (hrest q).trans ?_, fun h => hkeeps (hkeep h)⟩
    rw [hfirst q, length_modifyBlock, List.mem_cons]
    constructor
    · rintro ((h | ⟨rfl, rfl, h⟩) | ⟨rfl, hc, h⟩)
      · exact .inl h
      · exact .inr ⟨rfl, .inl rfl, h⟩
      · exact .inr ⟨rfl, .inr hc, h⟩
    · rintro (h | ⟨rfl, rfl | hc, h⟩)
      · exact .inl (.inl h)
      · exact .inl (.inr ⟨rfl, rfl, h⟩)
      · exact .inr ⟨rfl, hc, h⟩

end Func

namespace Builder

theorem code_append (b : Builder) (c : List Stmt) (id : BlockId)
    (inside : b.current.index < b.func.blocks.length) :
    (b.append c).func.code id =
      if id = b.current then b.func.code id ++ c else b.func.code id := by
  show ((b.func.modifyBlock b.current _).block id).stmts = _
  rw [Func.block_modifyBlock]
  by_cases h : id = b.current
  · rw [if_pos ⟨h, inside⟩, if_pos h]; rfl
  · rw [if_neg (fun hc => h hc.1), if_neg h]; rfl

@[simp] theorem exit_append (b : Builder) (c : List Stmt) (id : BlockId) :
    (b.append c).func.exit id = b.func.exit id := by
  show ((b.func.modifyBlock b.current _).block id).terminator = _
  rw [Func.block_modifyBlock]
  split <;> rfl

@[simp] theorem preds_append (b : Builder) (c : List Stmt) (id : BlockId) :
    (b.append c).func.preds id = b.func.preds id := by
  show ((b.func.modifyBlock b.current _).block id).preds = _
  rw [Func.block_modifyBlock]
  split <;> rfl

/-- Code that is added to a block is added to the statements of the function. -/
theorem stmts_append_perm (b : Builder) (c : List Stmt)
    (inside : b.current.index < b.func.blocks.length) :
    (b.append c).func.stmts.Perm (b.func.stmts ++ c) := by
  have key : ∀ (l : List Block) (i : Nat), i < l.length →
      ((l.modify i fun k => { k with stmts := k.stmts ++ c }).flatMap Block.stmts).Perm
        (l.flatMap Block.stmts ++ c) := by
    intro l
    induction l with
    | nil => nofun
    | cons k l ih =>
      intro i hi
      cases i with
      | zero =>
        simp only [List.modify_zero_cons, List.flatMap_cons, List.append_assoc]
        exact (List.perm_append_comm).append_left _
      | succ i =>
        simp only [List.modify_succ_cons, List.flatMap_cons, List.append_assoc]
        exact (ih i (Nat.lt_of_succ_lt_succ hi)).append_left _
  exact key b.func.blocks b.current.index inside

theorem block_newBlock (b : Builder) (id : BlockId) :
    b.newBlock.2.func.block id = b.func.block id := by
  unfold newBlock Func.block
  simp only [List.getD_eq_getElem?_getD]
  by_cases h : id.index < b.func.blocks.length
  · rw [List.getElem?_append_left h]
  · rw [List.getElem?_append_right (by omega), List.getElem?_eq_none (Nat.le_of_not_lt h)]
    cases hi : id.index - b.func.blocks.length <;> simp

/-- Ending the current block decides its terminator and no other code or terminator. -/
theorem terminate_spec (b : Builder) (t : Terminator) :
    (∀ id, (b.terminate t).func.code id = b.func.code id) ∧
      (b.current.index < b.func.blocks.length → ∀ id, (b.terminate t).func.exit id =
        if id = b.current then t else b.func.exit id) ∧
      (b.terminate t).func.blocks.length = b.func.blocks.length ∧
      (b.terminate t).func.nextReg = b.func.nextReg ∧
      (b.terminate t).func.bools = b.func.bools := by
  obtain ⟨hv, hl, hn, hb, -⟩ := b.func.notePred_spec b.current t.successors
  unfold terminate Func.code Func.exit at *
  dsimp only at hv hl hn hb ⊢
  refine ⟨fun id => ?_, fun inside id => ?_, ?_, hn, hb⟩
  · rw [Func.block_modifyBlock]
    split
    · exact (hv id).1
    · exact (hv id).1
  · rw [Func.block_modifyBlock]
    by_cases h : id = b.current
    · rw [if_pos ⟨h, Nat.lt_of_lt_of_eq inside hl.symm⟩, if_pos h]
    · rw [if_neg (fun hc => h hc.1), if_neg h]
      exact (hv id).2
  · rw [Func.length_modifyBlock]
    exact hl

/-- Ending the current block leaves the statements and the frame as they are. -/
theorem stmts_terminate (b : Builder) (t : Terminator) :
    (b.terminate t).func.stmts = b.func.stmts ∧ (b.terminate t).func.frame = b.func.frame := by
  obtain ⟨-, -, -, -, hs, hf⟩ := b.func.notePred_spec b.current t.successors
  refine ⟨Eq.trans ?_ hs, hf⟩
  exact Func.stmts_modifyBlock (b.func.notePred b.current t.successors) b.current fun _ => rfl

theorem preds_terminate (b : Builder) (t : Terminator) (id : BlockId) :
    (b.terminate t).func.preds id = (b.func.notePred b.current t.successors).preds id := by
  show ((Func.modifyBlock _ b.current _).block id).preds = _
  rw [Func.block_modifyBlock]
  split <;> rfl

/-- Ending the current block notes it in its successors, once in each. -/
theorem mem_preds_terminate (b : Builder) (t : Terminator) (id : BlockId) :
    (∀ p, p ∈ (b.terminate t).func.preds id ↔ p ∈ b.func.preds id ∨
      p = b.current ∧ id ∈ t.successors ∧ id.index < b.func.blocks.length) ∧
    ((b.func.preds id).Nodup → ((b.terminate t).func.preds id).Nodup) := by
  rw [preds_terminate]
  exact b.func.mem_notePred b.current t.successors id

theorem stmts_newBlock (b : Builder) : b.newBlock.2.func.stmts = b.func.stmts := by
  simp [newBlock, Func.stmts]

/-- A source that comes to the phi at the head of a block is the last of its sources. -/
theorem addPhiSource?_eq_some {b b' : Builder} {block : BlockId} {phi : Reg}
    {source : BlockId × Reg} (h : b.addPhiSource? block phi source = some b') :
    (∀ id, b'.func.code id =
        if id = block then Stmt.addSource phi source (b.func.code id) else b.func.code id) ∧
      (∀ id, b'.func.exit id = b.func.exit id) ∧
      b'.func.blocks.length = b.func.blocks.length ∧ b'.func.nextReg = b.func.nextReg ∧
      b'.func.bools = b.func.bools ∧ b'.current = b.current ∧ b'.externs = b.externs := by
  obtain ⟨_, -, rfl⟩ := Option.map_eq_some_iff.mp h
  refine ⟨fun id => ?_, fun id => ?_, by simp, rfl, rfl, rfl, rfl⟩
  · unfold Func.code
    rw [Func.block_modifyBlock]
    by_cases hid : id = block
    · subst hid
      rw [if_pos rfl]
      split
      · rfl
      next outside =>
        have hnil := b.func.code_of_le (b := id) (by simpa using outside)
        rw [Func.code] at hnil
        rw [hnil]
        rfl
    · rw [if_neg (fun hc => hid hc.1), if_neg hid]
  · unfold Func.exit
    rw [Func.block_modifyBlock]
    split <;> rfl

/-- Of the statements nothing changes but the sources. -/
theorem filterMap_stmts_addPhiSource? {α : Type} {b b' : Builder} {block : BlockId} {phi : Reg}
    {source : BlockId × Reg} (h : b.addPhiSource? block phi source = some b') {F : Stmt → Option α}
    (keep : ∀ d sources sources', F (.phi d sources) = F (.phi d sources')) :
    b'.func.stmts.filterMap F = b.func.stmts.filterMap F := by
  obtain ⟨_, -, rfl⟩ := Option.map_eq_some_iff.mp h
  unfold Func.stmts
  rw [List.filterMap_flatMap, List.filterMap_flatMap]
  exact b.func.flatMap_modifyBlock block fun k => filterMap_addSource keep phi source k.stmts

/-- It is in no other way noted. -/
theorem addPhiSource?_keeps {b b' : Builder} {block : BlockId} {phi : Reg}
    {source : BlockId × Reg} (h : b.addPhiSource? block phi source = some b') :
    (∀ id, b'.func.preds id = b.func.preds id) ∧ b'.func.frame = b.func.frame ∧
      dests b'.func.stmts = dests b.func.stmts ∧
      b'.func.stmts.filterMap Stmt.boolDest? = b.func.stmts.filterMap Stmt.boolDest? := by
  have hdests := filterMap_stmts_addPhiSource? h (F := Stmt.dest?) fun _ _ _ => rfl
  have hcompared := filterMap_stmts_addPhiSource? h (F := Stmt.boolDest?) fun _ _ _ => rfl
  obtain ⟨_, -, rfl⟩ := Option.map_eq_some_iff.mp h
  refine ⟨fun id => ?_, rfl, hdests, hcompared⟩
  unfold Func.preds
  rw [Func.block_modifyBlock]
  split <;> rfl

end Builder

end StackFlow.IR
