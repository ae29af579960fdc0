import StackFlow.Proofs.Code.Bytecode
import StackFlow.Proofs.IR.Run
import StackFlow.Proofs.Lowering.Ending
import StackFlow.Proofs.Lowering.Prologue

/-!
What the register code of an instruction does, compared with the instruction itself: where the
registers of the stack hold the values of the stack before it, they do so after it.
-/
namespace StackFlow

open IR (Reg Stmt BlockId Terminator Machine Calls Input dests execAll)

variable {σ : Type} {calls : Calls σ} {input : Input}

/-- The registers hold the values of the stack, the top first, and the variables those of the
locals. -/
structure Frame.Held (f : Frame σ) (locals : Nat) (r : List Reg) (k : Machine σ) : Prop where
  stack : f.stack = r.map fun q => ⟨k.get q⟩
  count : f.locals.length = locals
  locals : ∀ (n : Nat) (v : Value), f.locals[n]? = some v → v = ⟨k.locals.get n⟩
  host : f.host = k.host

namespace Frame.Held

variable {f : Frame σ} {locals n : Nat} {r : List Reg} {k : Machine σ}

theorem length_eq (h : f.Held locals r k) : f.stack.length = r.length := by
  rw [h.stack, List.length_map]

/-- The position does not matter. -/
theorem at_position (h : f.Held locals r k) (p : Nat) : { f with position := p }.Held locals r k :=
  ⟨h.stack, h.count, h.locals, h.host⟩

/-- Only the registers of the stack matter. -/
theorem of_stack {r' : List Reg} {k' : Machine σ} {s : List Value} (h : f.Held locals r k)
    (same : k'.locals = k.locals ∧ k'.host = k.host) (hs : s = r'.map fun q => ⟨k'.get q⟩) :
    { f with stack := s }.Held locals r' k' := by
  refine ⟨hs, h.count, ?_, h.host.trans same.2.symm⟩
  rw [same.1]
  exact h.locals

/-- The next free register takes the value of a push. -/
theorem push (h : f.Held locals r k) (below : ∀ q ∈ r, q.index < n) (w : Word) :
    (f.push ⟨w⟩).Held locals (⟨n⟩ :: r) (k.set ⟨n⟩ w) := by
  have same : (k.set ⟨n⟩ w).locals = k.locals ∧ (k.set ⟨n⟩ w).host = k.host := ⟨rfl, rfl⟩
  apply h.of_stack same
  rw [h.stack, List.map_cons, Machine.get_set, if_pos rfl]
  congr 1
  apply List.map_congr_left
  intro q hq
  have hne : q ≠ ⟨n⟩ := by
    rintro rfl
    exact Nat.lt_irrefl n (below _ hq)
  rw [Machine.get_set, if_neg hne]

end Frame.Held

namespace Straight

variable {x : ExternTable} {max n : Nat} {i : Instr} {s t : List Reg} {c : List Stmt}

theorem below (h : Straight x max i n s c t) (hs : ∀ q ∈ s, q.index < n) :
    ∀ q ∈ t, q.index < n + (dests c).length := by
  intro q hq
  rcases h.mem hq with hm | hm
  · exact Nat.lt_of_lt_of_le (hs q hm) (Nat.le_add_right _ _)
  · exact (h.numbered.bounds hm).2

/-- A value that is sent a method lies below the arguments. -/
theorem held_send {args : List Reg} {receiver : Reg} {selector : Word} {f : Frame σ}
    {locals : Nat} {k : Machine σ} (hf : f.Held locals (args.reverse ++ receiver :: s) k)
    (below : ∀ q ∈ args.reverse ++ receiver :: s, q.index < n) :
    ∃ f', f.send calls selector args.length = some f' ∧
      f'.Held locals (⟨n + 1⟩ :: s) (execAll calls input [.const ⟨n⟩ selector,
        .call ⟨n + 1⟩ (ExternTable.funcallName args.length) (receiver :: ⟨n⟩ :: args)] k) := by
  have hdrop : f.stack.drop args.length = ⟨k.get receiver⟩ :: s.map fun q => ⟨k.get q⟩ := by
    rw [hf.stack, List.map_append, List.drop_left' (by simp), List.map_cons]
  have htake : ((f.stack.take args.length).reverse).map Value.bits = args.map k.get := by
    rw [hf.stack, List.map_append, List.take_left' (by simp)]
    simp [Function.comp_def]
  have hkeep (w : Word) : ∀ q ∈ args.reverse ++ receiver :: s, (k.set ⟨n⟩ w).get q = k.get q := by
    intro q hq
    rw [Machine.get_set, if_neg]
    rintro rfl
    exact Nat.lt_irrefl n (below _ hq)
  have hargs : (receiver :: ⟨n⟩ :: args).map (k.set ⟨n⟩ selector).get =
      k.get receiver :: selector :: args.map k.get := by
    rw [List.map_cons, List.map_cons, hkeep _ _ (by simp), Machine.get_set, if_pos rfl]
    congr 2
    apply List.map_congr_left
    intro q hq
    exact hkeep _ _ (by simp [hq])
  unfold Frame.send
  rw [hdrop]
  dsimp only
  rw [htake, hf.host]
  refine ⟨_, rfl, ?_⟩
  simp only [IR.execAll_cons, IR.execAll_nil, Stmt.exec]
  rw [hargs]
  refine ⟨?_, hf.count, hf.locals, rfl⟩
  dsimp only
  rw [List.map_cons, Machine.get_set, if_pos rfl]
  congr 1
  apply List.map_congr_left
  intro q hq
  have hlt := below q (by simp [hq])
  have hne : q ≠ ⟨n + 1⟩ := by
    rintro rfl
    exact Nat.lt_irrefl _ (Nat.lt_of_succ_lt hlt)
  rw [Machine.get_set, if_neg hne]
  exact congrArg Value.mk (hkeep selector q (by simp [hq])).symm

/-- The instruction executes, and the code does to the machine what it does to the frame. -/
theorem held (calls : Calls σ) (input : Input) {m : Method} (h : Straight x max i n s c t)
    (hi : i ∈ m.instrs) {f : Frame σ} {k : Machine σ} (hf : f.Held m.locals s k)
    (below : ∀ q ∈ s, q.index < n) :
    ∃ f', f.straight calls ⟨input.receiver⟩ i = some f' ∧
      f'.Held m.locals t (execAll calls input c k) := by
  have hstack := hf.stack
  cases h with
  | skip op =>
    refine ⟨f, ?_, hf⟩
    rcases op with op | op <;> simp [Frame.straight, op]
  | const op => exact ⟨_, f.straight_of_constant op, hf.push below _⟩
  | receiver op => exact ⟨_, by simp [Frame.straight, op], hf.push below input.receiver⟩
  | load op =>
    have hlt := Method.word_lt_locals hi (.inl op)
    rw [← hf.count] at hlt
    have hv := List.getElem?_eq_getElem hlt
    refine ⟨_, ?_, hf.push below (k.locals.get (i.word 0).toNat)⟩
    rw [← hf.locals _ _ hv]
    simp [Frame.straight, op, hv]
  | @store _ v op =>
    have hlt := Method.word_lt_locals hi (.inr op)
    rw [← hf.count] at hlt
    rw [List.map_cons] at hstack
    refine ⟨{ f with
      stack := t.map fun q => ⟨k.get q⟩
      locals := f.locals.set (i.word 0).toNat ⟨k.get v⟩ }, ?_, rfl, ?_, ?_, hf.host⟩
    · simp only [Frame.straight, op, hstack, if_pos hlt]
    · rw [List.length_set, hf.count]
    · intro j w hw
      rw [List.getElem?_set] at hw
      show w = ⟨(k.locals.set (i.word 0).toNat _).get j⟩
      rw [IR.Store.get_set]
      split at hw
      next he =>
        rw [if_pos he.symm]
        cases hw
        rfl
      next hne =>
        rw [if_neg fun he => hne he.symm]
        exact hf.locals j w hw
  | pop op =>
    rw [List.map_cons] at hstack
    exact ⟨_, by simp only [Frame.straight, op, hstack]; rfl, hf.of_stack ⟨rfl, rfl⟩ rfl⟩
  | dup op =>
    rw [List.map_cons] at hstack
    exact ⟨_, by simp only [Frame.straight, op, hstack]; rfl, hf.of_stack ⟨rfl, rfl⟩ rfl⟩
  | swap op =>
    rw [List.map_cons, List.map_cons] at hstack
    exact ⟨_, by simp only [Frame.straight, op, hstack]; rfl, hf.of_stack ⟨rfl, rfl⟩ rfl⟩
  | send op =>
    rw [f.straight_of_sends op]
    exact held_send hf below

/-- The instruction takes the code to the next one. -/
theorem advance (calls : Calls σ) (input : Input) {m : Method} (h : Straight x max i n s c t)
    (hi : i ∈ m.instrs) (plain : i.opcode.control = none) (room : max = m.stackMax) {f : Frame σ}
    {k : Machine σ} (hf : f.Held m.locals s k) (hp : f.position = i.position)
    (below : ∀ q ∈ s, q.index < n) (fits : s.length ≤ max) :
    ∃ f', m.advance calls ⟨input.receiver⟩ (.running f) = .running f' ∧ f'.position = i.next ∧
      f'.Held m.locals t (execAll calls input c k) := by
  obtain ⟨f', hstraight, hheld⟩ := h.held calls input hi hf below
  have hlen := h.length_le fits
  refine ⟨{ f' with position := i.next }, ?_, rfl, hheld.at_position i.next⟩
  show m.step calls ⟨input.receiver⟩ f = _
  rw [Method.step_eq hi hp, plain]
  dsimp only
  rw [hstraight]
  dsimp only
  rw [if_pos]
  rw [hheld.length_eq]
  omega

end Straight

/-- The code for a condition tells whether the branch is taken, and changes nothing else. -/
theorem Lowering.conditionCode_taken (calls : Calls σ) (input : Input) {n : Nat} {v : Reg}
    (hv : v.index < n) (kind : BranchKind) (k : Machine σ) :
    let done := execAll calls input (conditionCode n v kind).1 k
    (done.get (conditionCode n v kind).2 ≠ 0 ↔ kind.taken ⟨k.get v⟩ = true) ∧
      done.locals = k.locals ∧ done.host = k.host := by
  have hne : v ≠ ⟨n⟩ := by
    rintro rfl
    exact Nat.lt_irrefl n hv
  have hkey : k.get v = Value.nil.bits ↔ (⟨k.get v⟩ : Value) = Value.nil :=
    ⟨congrArg Value.mk, congrArg Value.bits⟩
  have same (r : Reg) (w : Word) (k' : Machine σ) :
      (k'.set r w).locals = k'.locals ∧ (k'.set r w).host = k'.host := ⟨rfl, rfl⟩
  cases kind <;>
    simp [conditionCode, Stmt.exec, Machine.get_set, same, hne, hkey, IR.ofBool, BranchKind.taken,
      Value.truthy, Value.isNil]

/-- What the end of a block hands control on to: the place where an edge leads, with the stack of the
edge, or the end of the call. -/
inductive Departs (m : Method) (t : BlockTable) (trap : Option BlockId) (edges : List Edge)
    (k : Machine σ) : IR.Next → Status σ → Prop
  | goto {e : Edge} {target : BlockId} {f : Frame σ} (mem : e ∈ edges)
      (found : m.blockAt? t trap e.dest = some target) (position : f.position = e.dest)
      (held : f.Held m.locals e.stack.regs k) :
      Departs m t trap edges k (.goto target) (.running f)
  | stop {o : IR.Outcome} : Departs m t trap edges k (.stop o) (.ended o k.host)

namespace Ending

variable {m : Method} {x : ExternTable} {t : BlockTable} {trap : Option BlockId} {b : BasicBlock}
  {n : Nat} {s : OperandStack} {code : List Stmt} {term : Terminator} {edges : List Edge}

private theorem lookup_of_forall₂ {cases : List (Value × Nat)} {targets : List (Word × BlockId)}
    (h : List.Forall₂ (fun (k, dest) (w, target) => w = k.bits ∧ t.handle? dest = some target)
      cases targets) (key : Value) :
    (cases.lookup key = none ∧ targets.lookup key.bits = none) ∨
      ∃ dest target, cases.lookup key = some dest ∧ targets.lookup key.bits = some target ∧
        dest ∈ cases.map Prod.snd ∧ t.handle? dest = some target := by
  induction h with
  | nil => exact .inl ⟨rfl, rfl⟩
  | @cons p q cases targets hpq _ ih =>
    obtain ⟨value, dest⟩ := p
    obtain ⟨w, target⟩ := q
    obtain ⟨rfl, hfound⟩ := hpq
    by_cases hk : key = value
    · subst hk
      exact .inr ⟨dest, target, by simp, by simp, by simp, hfound⟩
    · have hb : key.bits ≠ value.bits := fun he => hk (congrArg Value.mk he)
      rw [List.lookup_cons, List.lookup_cons, beq_false_of_ne hk, beq_false_of_ne hb]
      rcases ih with hnone | ⟨d, g, hc, ht, hd, hg⟩
      · exact .inl hnone
      · exact .inr ⟨d, g, hc, ht, List.mem_cons_of_mem _ hd, hg⟩

/-- The transfer at the end of a block hands control on as the terminator does, where that reads the
registers after the code of the block. -/
theorem departs {i : Instr} {control : Control}
    (h : Ending m x t trap b n (some (i, control)) s code term edges)
    (targets : ∀ p target, t.handle? p = some target → p < m.length) {f : Frame σ} {k : Machine σ}
    (hf : f.Held m.locals s.regs k) (below : ∀ q ∈ s.regs, q.index < n) {get : Reg → Word}
    (kept : ∀ q, q ∈ s.regs ∨ q ∈ dests code → get q = (execAll calls input code k).get q) :
    Departs m t trap edges (execAll calls input code k) (term.next get)
      (f.transfer calls i control) := by
  have inside {p : Nat} {target : BlockId} (hp : t.handle? p = some target) :
      m.blockAt? t trap p = some target := Method.blockAt?_of_handle? (targets p target) hp
  have hstack := hf.stack
  cases h with
  | jump leads found =>
    rw [Frame.transfer_jump leads]
    exact .goto (List.mem_singleton_self _) (inside found) rfl (hf.at_position _)
  | @branch _ kind v s dest thenTo elseTo leads found next =>
    obtain ⟨htaken, hlocals, hhost⟩ := Lowering.conditionCode_taken calls input
      (below v List.mem_cons_self) kind k
    have hcond := kept (Lowering.conditionCode n v kind).2
      (.inr (by cases kind <;> simp [Lowering.conditionCode, dests, Stmt.dest?]))
    rw [← hcond] at htaken
    have hheld : ({ f with stack := s.regs.map fun q => ⟨k.get q⟩ } : Frame σ).Held m.locals s.regs
        (execAll calls input (Lowering.conditionCode n v kind).1 k) := by
      apply hf.of_stack ⟨hlocals, hhost⟩
      apply List.map_congr_left
      intro q hq
      rw [IR.get_execAll_of_not_mem]
      intro hm
      have hlow := ((Lowering.conditionCode_numbered n v kind).bounds hm).1
      have hhigh := below q (List.mem_cons_of_mem _ hq)
      omega
    rw [Frame.transfer_branch hstack leads, Terminator.next]
    by_cases hk : kind.taken ⟨k.get v⟩ = true
    · rw [if_pos hk, if_pos (htaken.mpr hk)]
      exact .goto (List.mem_map_of_mem (List.mem_cons_of_mem _ List.mem_cons_self)) (inside found) rfl
        (hheld.at_position _)
    · rw [if_neg hk, if_neg fun hc => hk (htaken.mp hc)]
      exact .goto (List.mem_map_of_mem List.mem_cons_self) next rfl (hheld.at_position _)
  | @dispatch _ key s cases other targets' otherTo table found foundOther =>
    have hkey : get key = k.get key := kept key (.inl List.mem_cons_self)
    have hheld : ({ f with stack := s.regs.map fun q => ⟨k.get q⟩ } : Frame σ).Held m.locals
        s.regs k := hf.of_stack ⟨rfl, rfl⟩ rfl
    rw [Frame.transfer_dispatch hstack table, Terminator.next, hkey]
    rcases lookup_of_forall₂ found ⟨k.get key⟩ with ⟨hc, ht⟩ | ⟨dest, target, hc, ht, hd, hfound⟩
    · rw [hc, ht]
      exact .goto (List.mem_map_of_mem List.mem_cons_self) (inside foundOther) rfl
        (hheld.at_position _)
    · rw [hc, ht]
      exact .goto (List.mem_map_of_mem (List.mem_cons_of_mem _ hd)) (inside hfound) rfl
        (hheld.at_position _)
  | @leave _ v =>
    have hv : get v = k.get v := kept v (.inl List.mem_cons_self)
    rw [Frame.transfer_leave hstack, Terminator.next, hv, hf.host]
    exact .stop
  | @throw _ v =>
    have hv := kept ⟨n + 1⟩ (.inr (by simp [dests, Stmt.dest?]))
    have hne : v ≠ ⟨n⟩ := by
      rintro rfl
      exact Nat.lt_irrefl n (below _ List.mem_cons_self)
    rw [Frame.transfer_throw hstack, Terminator.next, hv, hf.host]
    have hargs : [⟨n⟩, v].map (k.set ⟨n⟩ (i.word 0)).get = [i.word 0, k.get v] := by
      simp [Machine.get_set, hne]
    simp only [IR.execAll_cons, IR.execAll_nil, Stmt.exec, hargs, Machine.get_set, if_true]
    exact .stop

/-- A block without a transfer hands control on to the next one, or to the trap at the end of the
code. -/
theorem departs_fall (calls : Calls σ) (input : Input)
    (h : Ending m x t trap b n none s code term edges)
    (targets : ∀ p target, t.handle? p = some target → p < m.length) {f : Frame σ} {k : Machine σ}
    (hf : f.Held m.locals s.regs k) (get : Reg → Word) :
    (t.following? b.start = some f.position →
      Departs m t trap edges (execAll calls input code k) (term.next get) (.running f)) ∧
    (t.following? b.start = none →
      Departs m t trap edges (execAll calls input code k) (term.next get)
        (.ended .trapped f.host)) := by
  cases h with
  | @fall next target s follows found =>
    constructor
    · intro hsome
      rw [follows] at hsome
      exact .goto (List.mem_singleton_self _)
        (Method.blockAt?_of_handle? (targets next target) found) (Option.some.inj hsome).symm hf
    · intro hnone
      rw [hnone] at follows
      cases follows
  | stop follows =>
    constructor
    · intro hsome
      rw [hsome] at follows
      cases follows
    · intro _
      rw [hf.host]
      exact .stop

end Ending

namespace Lowering

/-- The code of a local gives it its first value and calls nothing. -/
theorem localCode_exec (calls : Calls σ) (input : Input) (m : Method) (n : Nat) (k : Machine σ) :
    let done := execAll calls input (localCode m n) k
    done.locals =
        k.locals.set n (if n < m.params then input.args.getD n 0 else Value.nil.bits) ∧
      done.host = k.host := by
  have hset (w : Word) : k.locals.set n ((k.set ⟨n⟩ w).get ⟨n⟩) = k.locals.set n w := by
    rw [Machine.get_set, if_pos rfl]
  unfold localCode
  split
  · exact ⟨hset _, rfl⟩
  · exact ⟨hset _, rfl⟩

theorem localsCode_exec (calls : Calls σ) (input : Input) (m : Method) (n : Nat) (k : Machine σ) :
    let done := execAll calls input ((List.range n).flatMap (localCode m)) k
    (∀ i < n, done.locals.get i =
      if i < m.params then input.args.getD i 0 else Value.nil.bits) ∧ done.host = k.host := by
  induction n with
  | zero => exact ⟨fun i hi => absurd hi (Nat.not_lt_zero i), rfl⟩
  | succ n ih =>
    obtain ⟨hlocals, hhost⟩ := ih
    rw [List.range_succ, List.flatMap_append, List.flatMap_singleton]
    dsimp only
    rw [IR.execAll_append]
    obtain ⟨hlocals', hhost'⟩ := localCode_exec calls input m n
      (execAll calls input ((List.range n).flatMap (localCode m)) k)
    refine ⟨?_, hhost'.trans hhost⟩
    intro i hi
    rw [hlocals', IR.Store.get_set]
    by_cases he : i = n
    · rw [if_pos he, he]
    · rw [if_neg he]
      exact hlocals i (by omega)

/-- After the code at the entry the variables hold the locals of the call. -/
theorem held_localsCode {m : Method} {args : List Value} (hargs : args.length = m.params)
    (w : Word) (host : σ) :
    (m.frame args host).Held m.locals []
      (execAll calls ⟨w, args.map Value.bits⟩ (localsCode m) { host }) := by
  have hparams := (Code.verify_eq_ok m.verified).2.1
  obtain ⟨hlocals, hhost⟩ := localsCode_exec calls ⟨w, args.map Value.bits⟩ m m.locals { host }
  refine ⟨rfl, ?_, ?_, hhost.symm⟩
  · simp only [Method.frame, List.length_append, List.length_replicate]
    omega
  · intro i v hv
    have hi : i < m.locals := by
      have := (List.getElem?_eq_some_iff.mp hv).1
      simp only [Method.frame, List.length_append, List.length_replicate] at this
      omega
    unfold localsCode
    rw [hlocals i hi]
    simp only [Method.frame] at hv
    split
    next hp =>
      rw [List.getElem?_append_left (by omega)] at hv
      simp [List.getD_eq_getElem?_getD, hv]
    next hp =>
      rw [List.getElem?_append_right (by omega), List.getElem?_replicate] at hv
      split at hv
      · cases hv
        rfl
      · cases hv

end Lowering

end StackFlow
