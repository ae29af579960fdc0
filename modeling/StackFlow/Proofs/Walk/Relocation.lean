import Mathlib.Order.WellFounded
import StackFlow.Proofs.Code.Correspondence
import StackFlow.Proofs.Lowering.Faults
import StackFlow.Proofs.Walk.Step

/-!
Methods that are compiled in step. Their instructions do the same in the same order, only at
positions of their own, and then the walks over their blocks differ in nothing but these positions.
Main statement: the compilations give the same function, or fail in the same way
(`Compiler.mirrored_compile`).
-/
namespace StackFlow

open IR (Reg BlockId Builder)

/-- The positions correspond, or the ones after them do: these are the last words of two blocks. -/
def Beside (φ : Nat → Nat) (p p' : Nat) : Prop := p' = φ p ∨ p' + 1 = φ (p + 1)

/-- The errors are the same but for the positions that they name. -/
inductive CompileError.Mirrors (φ : Nat → Nat) : CompileError → CompileError → Prop
  | stackOverflow (max next : Nat) : Mirrors φ (.stackOverflow max next) (.stackOverflow max next)
  | stackUnderflow (next : Int64) : Mirrors φ (.stackUnderflow next) (.stackUnderflow next)
  | unexpectedStackDepth (depth : Nat) (op : Opcode) (p : Nat) :
      Mirrors φ (.unexpectedStackDepth depth op p) (.unexpectedStackDepth depth op (φ p))
  | unresolvedExternal (name : String) :
      Mirrors φ (.unresolvedExternal name) (.unresolvedExternal name)
  | unsupportedInstruction (op : Opcode) (p : Nat) :
      Mirrors φ (.unsupportedInstruction op p) (.unsupportedInstruction op (φ p))
  | inconsistentMerge (p : Nat) {source source' : Nat} (beside : Beside φ source source') :
      Mirrors φ (.inconsistentMerge p source) (.inconsistentMerge (φ p) source')
  | code (e e' : CodeError) : Mirrors φ (.code e) (.code e')

/-- Two computations fail with errors that are the same but for positions, or give results that are
related. -/
inductive Mirrored (φ : Nat → Nat) {α β : Type} (R : α → β → Prop) :
    Except CompileError α → Except CompileError β → Prop
  | ok {a : α} {b : β} (related : R a b) : Mirrored φ R (.ok a) (.ok b)
  | error {e e' : CompileError} (mirrors : e.Mirrors φ e') : Mirrored φ R (.error e) (.error e')

variable {φ : Nat → Nat}

theorem Beside.le_iff {p p' : Nat} (h : Beside φ p p') (mono : StrictMono φ) (q : Nat) :
    φ q ≤ p' ↔ q ≤ p := by
  rcases h with rfl | h
  · exact mono.le_iff_le
  · rw [← Nat.lt_succ_iff, ← Nat.lt_succ_iff, Nat.succ_eq_add_one, h]
    exact mono.lt_iff_lt

namespace Mirrored

variable {α β γ δ : Type} {R : α → β → Prop} {S : γ → δ → Prop} {x : Except CompileError α}
  {y : Except CompileError β}

theorem bind {f : α → Except CompileError γ} {g : β → Except CompileError δ} (h : Mirrored φ R x y)
    (hfg : ∀ a b, R a b → Mirrored φ S (f a) (g b)) : Mirrored φ S (x >>= f) (y >>= g) := by
  cases h with
  | ok related => exact hfg _ _ related
  | error mirrors => exact .error mirrors

theorem map {f : α → γ} {g : β → δ} (h : Mirrored φ R x y) (hfg : ∀ a b, R a b → S (f a) (g b)) :
    Mirrored φ S (x.map f) (y.map g) := by
  cases h with
  | ok related => exact .ok (hfg _ _ related)
  | error mirrors => exact .error mirrors

theorem imp {R' : α → β → Prop} (h : Mirrored φ R x y) (hR : ∀ a b, R a b → R' a b) :
    Mirrored φ R' x y := by
  cases h with
  | ok related => exact .ok (hR _ _ related)
  | error mirrors => exact .error mirrors

/-- What is known of the result of the first computation can be used. -/
theorem and_of_ok {P : α → Prop} (h : Mirrored φ R x y) (known : ∀ a, x = .ok a → P a) :
    Mirrored φ (fun a b => R a b ∧ P a) x y := by
  cases h with
  | ok related => exact .ok ⟨related, known _ rfl⟩
  | error mirrors => exact .error mirrors

/-- A computation mirrors itself if its errors name no positions. -/
theorem self (h : ∀ e, x = .error e → e.Mirrors φ e) : Mirrored φ Eq x x := by
  cases x with
  | ok a => exact .ok rfl
  | error e => exact .error (h e rfl)

end Mirrored

namespace Emit

variable {α β : Type}

/-- The errors of this part of a lowering name no positions. -/
def Placeless (x : Emit α) : Prop := ∀ φ b e, x.run b = .error e → e.Mirrors φ e

theorem Placeless.mirrored {x : Emit α} (h : x.Placeless) (φ : Nat → Nat) (b : Builder) :
    Mirrored φ Eq (x.run b) (x.run b) := .self (h φ b)

theorem placeless_pure (a : α) : (pure a : Emit α).Placeless := nofun

theorem placeless_stmt (f : Builder → Reg × Builder) : (stmt f).Placeless := nofun

theorem placeless_storeLocal (i : Nat) (v : Reg) : (storeLocal i v).Placeless := nofun

theorem placeless_bind {x : Emit α} {f : α → Emit β} (hx : x.Placeless)
    (hf : ∀ a, (f a).Placeless) : (x >>= f).Placeless := by
  intro φ b e h
  rcases run_bind_eq_error h with h | ⟨a, b₁, -, h⟩
  · exact hx φ b e h
  · exact hf a φ b₁ e h

theorem placeless_call (callee : String) (args : List Reg) : (call callee args).Placeless := by
  intro φ b e h
  obtain ⟨rfl, -⟩ := run_call_eq_error h
  exact .unresolvedExternal callee

theorem placeless_lift {x : Except CompileError α} (h : ∀ φ e, x = .error e → e.Mirrors φ e) :
    (liftM x : Emit α).Placeless := fun φ _ e he => h φ e (run_lift_eq_error he)

end Emit

namespace OperandStack

variable {s : OperandStack} {e : CompileError}

theorem mirrors_of_push {r : Reg} (h : s.push r = .error e) : e.Mirrors φ e := by
  obtain ⟨-, rfl⟩ := push_eq_error h
  exact .stackOverflow _ _

theorem mirrors_of_pop (h : s.pop = .error e) : e.Mirrors φ e := by
  obtain ⟨-, next, rfl⟩ := pop_eq_error h
  exact .stackUnderflow next

theorem mirrors_of_popN {n : Nat} (h : s.popN n = .error e) : e.Mirrors φ e := by
  obtain ⟨-, next, rfl⟩ := popN_eq_error h
  exact .stackUnderflow next

theorem placeless_push (r : Reg) : (liftM (s.push r) : Emit OperandStack).Placeless :=
  Emit.placeless_lift fun _ _ => mirrors_of_push

theorem placeless_pop : (liftM s.pop : Emit (Reg × OperandStack)).Placeless :=
  Emit.placeless_lift fun _ _ => mirrors_of_pop

theorem placeless_popN (n : Nat) :
    (liftM (s.popN n) : Emit (List Reg × OperandStack)).Placeless :=
  Emit.placeless_lift fun _ _ => mirrors_of_popN

end OperandStack

namespace Lowering

open Emit OperandStack

variable {i i' : Instr} {s : OperandStack}

theorem placeless_pushStmt (f : Builder → Reg × Builder) : (pushStmt f s).Placeless :=
  placeless_bind (placeless_stmt f) placeless_push

theorem placeless_send (selector : Word) (count : Nat) : (send selector count s).Placeless :=
  placeless_bind (placeless_popN count) fun _ =>
    placeless_bind placeless_pop fun _ =>
      placeless_bind (placeless_stmt _) fun _ =>
        placeless_bind (placeless_call _ _) placeless_push

theorem placeless_condition (kind : BranchKind) (v : Reg) :
    (standardCondition kind v).Placeless := by
  cases kind <;> exact nofun

theorem placeless_result (kind : ExitKind) (v : Reg) : (standardResult kind i v).Placeless := by
  cases kind with
  | leave => exact placeless_pure v
  | throw => exact placeless_bind (placeless_stmt _) fun state => placeless_call _ [state, v]

theorem placeless_initLocals (m : Method) : (initLocals m).Placeless := by
  unfold initLocals
  rw [List.forM_eq_forM]
  induction List.range m.locals with
  | nil => exact placeless_pure ()
  | cons k ks ih =>
    rw [List.forM_cons]
    exact placeless_bind (placeless_bind (placeless_stmt _) fun v => placeless_storeLocal k v)
      fun _ => ih

/-- The lowering looks at the opcode and the first two operands; only an error for an opcode that it
does not know names the position. -/
theorem mirrored_straight (opcode : i'.opcode = i.opcode) (first : i'.word 0 = i.word 0)
    (second : i'.word 1 = i.word 1) (position : i'.position = φ i.position) (b : Builder) :
    Mirrored φ Eq ((standardStraight i s).run b) ((standardStraight i' s).run b) := by
  unfold standardStraight
  rw [opcode, first, second, position]
  split
  · exact .ok rfl
  · exact .ok rfl
  · exact (placeless_pushStmt _).mirrored φ b
  · exact (placeless_pushStmt _).mirrored φ b
  · exact (placeless_pushStmt _).mirrored φ b
  · exact (placeless_pushStmt _).mirrored φ b
  · exact (placeless_pushStmt _).mirrored φ b
  · exact (placeless_bind placeless_pop fun _ => placeless_pure _).mirrored φ b
  · exact (placeless_bind placeless_pop fun _ =>
      placeless_bind (placeless_push _) fun _ => placeless_push _).mirrored φ b
  · exact (placeless_bind placeless_pop fun _ => placeless_bind placeless_pop fun _ =>
      placeless_bind (placeless_push _) fun _ => placeless_push _).mirrored φ b
  · exact (placeless_pushStmt _).mirrored φ b
  · exact (placeless_bind placeless_pop fun _ =>
      placeless_bind (placeless_storeLocal _ _) fun _ => placeless_pure _).mirrored φ b
  · exact (placeless_send _ _).mirrored φ b
  · split
    · exact (placeless_send _ _).mirrored φ b
    · exact .error (.unsupportedInstruction _ _)

end Lowering

/-! ### Blocks whose positions are others -/

def BasicBlock.relocate (φ : Nat → Nat) (b : BasicBlock) : BasicBlock :=
  { b with start := φ b.start, last := φ (b.last + 1) - 1 }

def BlockTable.relocate (φ : Nat → Nat) (t : BlockTable) : BlockTable :=
  ⟨t.blocks.map (·.relocate φ)⟩

def Walk.relocate (φ : Nat → Nat) (w : Walk) : Walk := { w with table := w.table.relocate φ }

/-- The last words of a block and of the relocated one. -/
theorem BasicBlock.beside_last (mono : StrictMono φ) (b : BasicBlock) :
    Beside φ b.last (b.relocate φ).last := by
  have := mono.le_apply (x := b.last + 1)
  right
  show φ (b.last + 1) - 1 + 1 = φ (b.last + 1)
  omega

namespace BlockTable

section

variable (mono : StrictMono φ) (t : BlockTable)

include mono

theorem block?_relocate (p : Nat) :
    (t.relocate φ).block? (φ p) = (t.block? p).map (·.relocate φ) := by
  unfold block? relocate
  rw [← List.map_reverse, List.find?_map]
  congr 2
  funext b
  simp [BasicBlock.relocate, mono.injective.eq_iff]

theorem modify_relocate (p : Nat) {f : BasicBlock → BasicBlock}
    (commutes : ∀ b, f (b.relocate φ) = (f b).relocate φ) :
    (t.relocate φ).modify (φ p) f = (t.modify p f).relocate φ := by
  unfold modify relocate
  rw [List.map_map, List.map_map]
  congr 2
  funext b
  simp only [Function.comp_apply]
  by_cases hb : b.start = p
  · have hb' : (b.relocate φ).start = φ p := congrArg φ hb
    rw [if_pos hb, if_pos hb', commutes]
  · have hb' : (b.relocate φ).start ≠ φ p := fun h => hb (mono.injective h)
    rw [if_neg hb, if_neg hb']

theorem following?_relocate (p : Nat) :
    (t.relocate φ).following? (φ p) = (t.following? p).map φ := by
  unfold following?
  rw [block?_relocate mono]
  cases t.block? p with
  | none => rfl
  | some b =>
    have later : ((t.relocate φ).blocks.reverse.takeWhile (·.start != φ p)) =
        (t.blocks.reverse.takeWhile (·.start != p)).map (·.relocate φ) := by
      rw [relocate, ← List.map_reverse, List.takeWhile_map]
      congr 2
      funext b
      simp [BasicBlock.relocate, bne, mono.injective.eq_iff]
    rw [later, List.getLast?_map]
    cases (t.blocks.reverse.takeWhile (·.start != p)).getLast? <;> rfl

theorem mirrored_handle (p source source' : Nat) :
    Mirrored φ Eq (t.handle p source) ((t.relocate φ).handle (φ p) source') := by
  unfold handle
  rw [block?_relocate mono]
  cases t.block? p with
  | none => exact .error (.code _ _)
  | some b => exact .ok rfl

end

/-- The table that a compilation begins with. -/
theorem ofStarts_relocate (φ : Nat → Nat) {starts : List Nat}
    (ascending : starts.Pairwise (· < ·)) {length : Nat} (nonempty : 0 < length) (b : Builder) :
    ofStarts (starts.map φ) (φ length) b =
      ((ofStarts starts length b).1.relocate φ, (ofStarts starts length b).2) := by
  have hallot : allot (φ length) (starts.map φ) b =
      ((allot length starts b).1.map (·.relocate φ), (allot length starts b).2) := by
    induction starts generalizing b with
    | nil => rfl
    | cons start rest ih =>
      obtain ⟨hstart, hrest⟩ := List.pairwise_cons.mp ascending
      have hlast : (rest.map φ).head?.getD (φ length) - 1 =
          φ (rest.head?.getD length - 1 + 1) - 1 := by
        cases rest with
        | nil =>
          simp only [List.map_nil, List.head?_nil, Option.getD_none, Nat.sub_add_cancel nonempty]
        | cons next rest =>
          have hnext : 1 ≤ next := Nat.lt_of_le_of_lt (Nat.zero_le _) (hstart next (by simp))
          simp only [List.map_cons, List.head?_cons, Option.getD_some, Nat.sub_add_cancel hnext]
      rw [List.map_cons, allot_cons, allot_cons, ih hrest, hlast]
      rfl
  unfold ofStarts relocate
  rw [hallot]

end BlockTable

/-! ### Instructions, edges and methods that correspond -/

/-- The instructions do the same, but at positions of their own, and lead to positions that
correspond. -/
structure Instr.Mirrors (φ : Nat → Nat) (i i' : Instr) : Prop where
  position_eq : i'.position = φ i.position
  next_eq : i'.next = φ i.next
  control_eq : i'.opcode.control = i.opcode.control
  straight : ∀ s b, Mirrored φ Eq ((Lowering.standardStraight i s).run b)
    ((Lowering.standardStraight i' s).run b)
  exit : ∀ kind, i.opcode.control = some (.exit kind) →
    i'.opcode = i.opcode ∧ i'.word 0 = i.word 0
  jump : (i.opcode.control = some .jump ∨ ∃ kind, i.opcode.control = some (.branch kind)) →
    i'.jumpTarget? = i.jumpTarget?.map φ
  dispatch : i.opcode.control = some .dispatch →
    i'.dispatchTable? = i.dispatchTable?.map fun t => (t.1.map fun c => (c.1, φ c.2), φ t.2)

structure Edge.Mirrors (φ : Nat → Nat) (e e' : Edge) : Prop where
  source : Beside φ e.source e'.source
  pred_eq : e'.pred = e.pred
  dest_eq : e'.dest = φ e.dest
  stack_eq : e'.stack = e.stack

/-- The methods have one frame, and blocks that start at positions that correspond. The blocks that are
live hold instructions that correspond; the others may hold whatever they like. -/
structure Method.Mirrors (φ : Nat → Nat) (live : Nat → Prop) (m m' : Method) : Prop where
  mono : StrictMono φ
  zero : φ 0 = 0
  name_eq : m'.name = m.name
  params_eq : m'.params = m.params
  locals_eq : m'.locals = m.locals
  stackMax_eq : m'.stackMax = m.stackMax
  length_eq : m'.length = φ m.length
  starts_eq : m'.blockStarts = m.blockStarts.map φ
  bodies : ∀ t : BlockTable, t.Covers m → ∀ b ∈ t.blocks, live b.start →
    List.Forall₂ (Instr.Mirrors φ) (m.instrsIn b.start b.last)
      (m'.instrsIn (b.relocate φ).start (b.relocate φ).last)

/-- What comes of ending a block. -/
def Ends (φ : Nat → Nat) (r r' : Draft × List Edge) : Prop :=
  r'.1 = r.1 ∧ List.Forall₂ (Edge.Mirrors φ) r.2 r'.2

theorem Instr.Mirrors.transfers_eq {i i' : Instr} (h : i.Mirrors φ i') :
    i'.transfers = i.transfers := by
  rw [transfers, transfers, h.control_eq]

theorem Instr.Mirrors.mirrored_destination {i i' : Instr} (h : i.Mirrors φ i')
    (leads : i.opcode.control = some .jump ∨ ∃ kind, i.opcode.control = some (.branch kind)) :
    Mirrored φ (fun p p' => p' = φ p) i.destination i'.destination := by
  unfold Instr.destination
  rw [h.jump leads]
  cases i.jumpTarget? with
  | none => exact .error (.code _ _)
  | some p => exact .ok rfl

theorem Instr.Relocates.mirrors {i i' : Instr} (h : i.Relocates φ i') : i.Mirrors φ i' where
  position_eq := h.position_eq
  next_eq := h.next_eq
  control_eq := h.alike.control_eq
  straight s b := by
    have transfers (hi : i.transfers = true) : Mirrored φ Eq
        ((Lowering.standardStraight i s).run b) ((Lowering.standardStraight i' s).run b) := by
      have same : i'.opcode = i.opcode := by
        obtain ⟨control, hcontrol⟩ := Option.isSome_iff_exists.mp hi
        exact h.alike.opcode_eq hcontrol
      rw [Lowering.standardStraight_of_transfers hi,
        Lowering.standardStraight_of_transfers (h.transfers_eq.trans hi), same, h.position_eq]
      exact .error (.unsupportedInstruction _ _)
    cases h.alike with
    | plain line =>
      have word (slot : Nat) : i'.word slot = i.word slot := by
        rw [Instr.word_eq_line, Instr.word_eq_line, line]
      exact Lowering.mirrored_straight (congrArg Prod.fst line) (word 0) (word 1) h.position_eq b
    | special pushes sends either =>
      rcases either with ⟨w, hw⟩ | ⟨call, hcall⟩
      · rw [Lowering.standardStraight_of_constant hw,
          Lowering.standardStraight_of_constant (pushes.trans hw)]
        exact (Lowering.placeless_pushStmt _).mirrored φ b
      · rw [Lowering.standardStraight_of_sends hcall,
          Lowering.standardStraight_of_sends (sends.trans hcall)]
        exact (Lowering.placeless_send _ _).mirrored φ b
    | jump opcode layout =>
      apply transfers
      unfold Instr.transfers
      cases hop : i.opcode <;> rw [hop] at layout <;> first | cases layout; done | rfl
    | dispatch table =>
      apply transfers
      rw [Instr.transfers, Instr.opcode_of_dispatchTable? table]
      rfl
  exit kind hexit := by
    refine ⟨h.alike.opcode_eq hexit, ?_⟩
    cases h.alike with
    | plain line => rw [Instr.word_eq_line, Instr.word_eq_line, line]
    | special pushes sends either =>
      obtain ⟨-, -, -, hnone, -⟩ := either.layout
      rw [hexit] at hnone
      cases hnone
    | jump opcode layout =>
      cases hop : i.opcode <;> rw [hop] at layout hexit <;> first | cases layout; done | cases hexit
    | dispatch table =>
      rw [Instr.opcode_of_dispatchTable? table] at hexit
      cases hexit
  jump _ := by
    obtain ⟨ps, htargets, htargets'⟩ := h.exists_targets
    unfold Instr.jumpTarget?
    rw [htargets, htargets']
    cases ps <;> simp [Instr.position?]
  dispatch hdispatch := by
    have op := Opcode.eq_caseDispatch_of_control hdispatch
    have layout : i.opcode.layout = none := by rw [op]; rfl
    cases h.alike with
    | plain _ layout' => rw [layout] at layout'; cases layout'
    | special _ _ either =>
      obtain ⟨_, layout', -⟩ := either.layout
      rw [layout] at layout'
      cases layout'
    | jump _ layout' => rw [layout] at layout'; cases layout'
    | dispatch table table' => rw [table, table']; rfl

theorem Draft.mirrored_emit {α : Type} (d : Draft) {x y : Emit α}
    (h : Mirrored φ Eq (x.run d.builder) (y.run d.builder)) :
    Mirrored φ Eq (d.emit x) (d.emit y) :=
  h.map fun _ _ he => by rw [he]

namespace Compiler

variable {c c' : Compiler} {i i' : Instr} {t : BlockTable} {d : Draft} {s : OperandStack}

theorem mirrored_lowerAll (standard : c.lowering = .standard) (standard' : c'.lowering = .standard)
    {is is' : List Instr} (h : List.Forall₂ (Instr.Mirrors φ) is is') (t t' : BlockTable)
    (s : OperandStack) (b : Builder) :
    Mirrored φ Eq (c.lowerAll t is s b).result (c'.lowerAll t' is' s b).result := by
  induction h generalizing s b with
  | nil => exact .ok rfl
  | cons first _ ih =>
    simp only [lowerAll, Traced.result_bind, Traced.result_report, result_lower, standard,
      standard']
    refine Mirrored.bind (.ok rfl) fun _ _ _ => ?_
    refine (first.straight s b).bind fun r r' he => ?_
    rw [he]
    exact ih _ _

theorem mirrored_jumpTo (mono : StrictMono φ) {source source' : Nat}
    (beside : Beside φ source source') (dest : Nat) :
    Mirrored φ (Ends φ) (jumpTo t source dest s d)
      (jumpTo (t.relocate φ) source' (φ dest) s d) := by
  refine (t.mirrored_handle mono dest source source').bind fun handle handle' he => ?_
  rw [he]
  exact .ok ⟨rfl, .cons ⟨beside, rfl, rfl, rfl⟩ .nil⟩

theorem mirrors_edges (h : i.Mirrors φ i') (pred : BlockId) (dests : List Nat) :
    List.Forall₂ (Edge.Mirrors φ) (edges i pred s dests) (edges i' pred s (dests.map φ)) := by
  unfold edges
  rw [List.map_map, List.forall₂_map_left_iff, List.forall₂_map_right_iff, List.forall₂_same]
  exact fun dest _ => ⟨.inl h.position_eq, rfl, rfl, rfl⟩

theorem mirrored_nextBlock (mono : StrictMono φ) (h : i.Mirrors φ i')
    (length : c'.method.length = φ c.method.length) :
    Mirrored φ Eq (c.nextBlock t i d) (c'.nextBlock (t.relocate φ) i' d) := by
  unfold nextBlock
  rw [h.next_eq, length]
  by_cases inside : i.next < c.method.length
  · rw [if_pos inside, if_pos (mono inside)]
    exact (t.mirrored_handle mono i.next _ _).map fun _ _ he => by rw [he]
  · rw [if_neg inside, if_neg fun h => inside (mono.lt_iff_lt.mp h)]
    exact .ok rfl

theorem mirrored_cases (mono : StrictMono φ) (source source' : Nat) (cases : List (Value × Nat)) :
    Mirrored φ Eq
      (cases.mapM fun (k, dest) => (t.handle dest source).map fun handle => (k.bits, handle))
      ((cases.map fun c => (c.1, φ c.2)).mapM fun (k, dest) =>
        ((t.relocate φ).handle dest source').map fun handle => (k.bits, handle)) := by
  induction cases with
  | nil => exact .ok rfl
  | cons c cases ih =>
    rw [List.map_cons, List.mapM_cons, List.mapM_cons]
    have first := (t.mirrored_handle mono c.2 source source').map
      (S := Eq) (f := fun handle => (c.1.bits, handle)) (g := fun handle => (c.1.bits, handle))
      fun _ _ he => by rw [he]
    refine first.bind fun p p' hp => ih.bind fun ps ps' hps => ?_
    rw [hp, hps]
    exact .ok rfl

theorem mirrored_transfer (mono : StrictMono φ) (standard : c.lowering = .standard)
    (standard' : c'.lowering = .standard) (length : c'.method.length = φ c.method.length)
    (h : i.Mirrors φ i') {control : Control} (transfers : i.opcode.control = some control) :
    Mirrored φ (Ends φ) (c.transfer t i s d control)
      (c'.transfer (t.relocate φ) i' s d control) := by
  unfold transfer
  rw [standard, standard']
  cases control with
  | jump =>
    refine (h.mirrored_destination (.inl transfers)).bind fun dest dest' hdest => ?_
    rw [hdest]
    exact mirrored_jumpTo mono (.inl h.position_eq) dest
  | branch kind =>
    refine (Mirrored.self fun _ => OperandStack.mirrors_of_pop).bind fun p p' hp => ?_
    rw [← hp]
    have condition := d.mirrored_emit ((Lowering.placeless_condition kind p.1).mirrored φ _)
    refine condition.bind fun q q' hq => ?_
    rw [← hq]
    refine (h.mirrored_destination (.inr ⟨kind, transfers⟩)).bind fun dest dest' hdest => ?_
    rw [hdest]
    refine (t.mirrored_handle mono dest _ _).bind fun target target' htarget => ?_
    refine (mirrored_nextBlock mono h length).bind fun r r' hr => ?_
    rw [← htarget, ← hr, h.next_eq]
    exact .ok ⟨rfl, mirrors_edges h _ [i.next, dest]⟩
  | dispatch =>
    refine (Mirrored.self fun _ => OperandStack.mirrors_of_pop).bind fun p p' hp => ?_
    rw [← hp, h.dispatch transfers]
    cases i.dispatchTable? with
    | none => exact .error (.code _ _)
    | some table =>
      refine (mirrored_cases mono _ _ table.1).bind fun cases cases' hcases => ?_
      refine (t.mirrored_handle mono table.2 _ _).bind fun target target' htarget => ?_
      rw [← hcases, ← htarget]
      have hedges := mirrors_edges (s := p.2) h d.builder.current (table.2 :: table.1.map Prod.snd)
      simp only [List.map_cons, List.map_map] at hedges ⊢
      exact .ok ⟨rfl, hedges⟩
  | exit kind =>
    obtain ⟨hop, hword⟩ := h.exit kind transfers
    dsimp only
    split
    · rw [hop, h.position_eq]
      exact .error (.unexpectedStackDepth _ _ _)
    · refine (Mirrored.self fun _ => OperandStack.mirrors_of_pop).bind fun p p' hp => ?_
      have same (v : Reg) :
          Lowering.standardResult kind i' v = Lowering.standardResult kind i v := by
        unfold Lowering.standardResult
        rw [hword]
      have result := d.mirrored_emit ((Lowering.placeless_result (i := i) kind p.1).mirrored φ _)
      rw [← hp]
      show Mirrored φ (Ends φ) (d.emit (Lowering.standardResult kind i p.1) >>= _)
        (d.emit (Lowering.standardResult kind i' p.1) >>= _)
      rw [same]
      refine result.bind fun q q' hq => ?_
      rw [← hq]
      exact .ok ⟨rfl, .nil⟩

theorem mirrored_finish (mono : StrictMono φ) (standard : c.lowering = .standard)
    (standard' : c'.lowering = .standard) (length : c'.method.length = φ c.method.length)
    {is is' : List Instr} (h : List.Forall₂ (Instr.Mirrors φ) is is') (block : BasicBlock) :
    Mirrored φ (Ends φ)
      (c.finish t block (is.findSome? fun i => i.opcode.control.map (i, ·)) s d).result
      (c'.finish (t.relocate φ) (block.relocate φ)
        (is'.findSome? fun i => i.opcode.control.map (i, ·)) s d).result := by
  induction h with
  | nil =>
    have hnext := t.following?_relocate mono block.start
    unfold finish
    simp only [List.findSome?_nil]
    change (t.relocate φ).following? (block.relocate φ).start = _ at hnext
    rw [hnext]
    cases t.following? block.start with
    | none => exact .ok ⟨rfl, .nil⟩
    | some next => exact mirrored_jumpTo mono (block.beside_last mono) next
  | @cons i i' is is' first _ ih =>
    rw [List.findSome?_cons, List.findSome?_cons, first.control_eq]
    cases hcontrol : i.opcode.control with
    | none => exact ih
    | some control =>
      unfold finish
      simp only [Option.map_some, Traced.result_bind, Traced.result_report]
      exact Mirrored.bind (.ok rfl) fun _ _ _ =>
        mirrored_transfer mono standard standard' length first hcontrol

end Compiler

/-- What comes of following an edge. -/
def Follows (φ : Nat → Nat) (r r' : Walk × List Edge) : Prop :=
  r'.1 = r.1.relocate φ ∧ List.Forall₂ (Edge.Mirrors φ) r.2 r'.2

namespace Compiler

variable {c c' : Compiler} {live : Nat → Prop}

theorem sites_enter {start : Nat} {s : OperandStack} {w w' : Walk} {edges : List Edge}
    (h : (c.enter start s w).result = .ok (w', edges)) : w'.table.sites = w.table.sites := by
  unfold enter at h
  split at h
  · cases h; rfl
  split at h
  · cases h; rfl
  obtain ⟨_, -, h⟩ := Traced.result_bind_eq_ok h
  obtain ⟨_, -, h⟩ := Traced.result_bind_eq_ok h
  obtain ⟨_, -, h⟩ := Traced.result_bind_eq_ok h
  obtain ⟨_, -, h⟩ := Traced.result_bind_eq_ok h
  cases h
  exact BlockTable.sites_modify _ _ fun _ => rfl

theorem mirrors_of_join {block : BasicBlock} {s : OperandStack} {b : Builder} {e : CompileError}
    (h : join block s b = .error e) : e.Mirrors φ e := by
  unfold join at h
  split at h
  · cases h
  · dsimp only at h
    generalize (if block.pending.isEmpty = true then s.dropTop else s) = below at h
    cases hpush : below.push (b.phi block.pending).1 with
    | ok s' => rw [hpush] at h; cases h
    | error e' => rw [hpush] at h; cases h; exact OperandStack.mirrors_of_push hpush

theorem mirrored_enter (standard : c.lowering = .standard) (standard' : c'.lowering = .standard)
    (mirrors : c.method.Mirrors φ live c'.method) {w : Walk} (covers : w.table.Covers c.method)
    {start : Nat} (alive : live start) (s : OperandStack) :
    Mirrored φ (Follows φ) (c.enter start s w).result
      (c'.enter (φ start) s (w.relocate φ)).result := by
  have mono := mirrors.mono
  have hfound : (w.relocate φ).table.block? (φ start) =
      (w.table.block? start).map (·.relocate φ) := w.table.block?_relocate mono start
  unfold enter
  rw [hfound]
  cases found : w.table.block? start with
  | none => exact .ok ⟨rfl, .nil⟩
  | some block =>
    obtain ⟨hmem, rfl⟩ := BlockTable.of_block?_eq_some found
    have body := mirrors.bodies w.table covers block hmem alive
    have straight := forall₂_takeWhile (p := fun i : Instr => !i.transfers)
      (q := fun i : Instr => !i.transfers) (fun i i' h => by rw [h.transfers_eq]) body
    have compiled : (block.relocate φ).compiled = block.compiled := rfl
    dsimp only [Option.map_some]
    rw [compiled]
    split
    · exact .ok ⟨rfl, .nil⟩
    simp only [Traced.result_bind, Traced.result_report, Traced.result_monadLift]
    refine Mirrored.bind (.ok rfl) fun _ _ _ => ?_
    -- the block joins what it would have joined at its old place
    refine (Mirrored.self fun _ => mirrors_of_join).bind fun r r' hr => ?_
    rw [← hr]
    let mark (k : BasicBlock) : BasicBlock :=
      { k with compiled := true, pending := [], merge := r.1,
               carries := k.carries.or (some r.1.isSome) }
    have table : (w.relocate φ).table.modify (φ block.start) mark =
        (w.table.modify block.start mark).relocate φ :=
      w.table.modify_relocate mono block.start fun _ => rfl
    dsimp only [mark] at table
    rw [table]
    refine (mirrored_lowerAll standard standard' straight _ _ _ _).bind fun q q' hq => ?_
    rw [← hq]
    refine (mirrored_finish mono standard standard' mirrors.length_eq body block).bind
      fun ended ended' hended => ?_
    obtain ⟨hdraft, hedges⟩ := hended
    rw [hdraft]
    exact .ok ⟨rfl, hedges⟩

end Compiler

namespace Walk

variable {w : Walk} {e e' : Edge}

theorem mirrored_deliver (mono : StrictMono φ) (h : e.Mirrors φ e') (block : BasicBlock) (v : Reg) :
    Mirrored φ (fun w w' => w' = w.relocate φ) (w.deliver block e v)
      ((w.relocate φ).deliver (block.relocate φ) e' v) := by
  have refused : CompileError.Mirrors φ (.inconsistentMerge e.dest e.source)
      (.inconsistentMerge e'.dest e'.source) := by
    rw [h.dest_eq]
    exact .inconsistentMerge _ h.source
  have merge : (block.relocate φ).merge = block.merge := rfl
  have compiled : (block.relocate φ).compiled = block.compiled := rfl
  have handle : (block.relocate φ).handle = block.handle := rfl
  have builder : (w.relocate φ).builder = w.builder := rfl
  unfold deliver
  rw [merge, compiled, handle, builder, h.pred_eq]
  cases block.merge with
  | some phi =>
    dsimp only
    cases w.builder.addPhiSource? block.handle phi (e.pred, v) with
    | some b => exact .ok rfl
    | none => exact .error refused
  | none =>
    dsimp only
    split
    · exact .error refused
    · let wait (k : BasicBlock) : BasicBlock := { k with pending := k.pending ++ [(e.pred, v)] }
      have table : (w.relocate φ).table.modify (φ e.dest) wait =
          (w.table.modify e.dest wait).relocate φ :=
        w.table.modify_relocate mono e.dest fun _ => rfl
      refine .ok ?_
      rw [h.dest_eq]
      exact congrArg (fun t => { w with table := t }) table

theorem mirrored_arrive (mono : StrictMono φ) (h : e.Mirrors φ e') :
    Mirrored φ (fun r r' => r' = (r.1, r.2.relocate φ)) (w.arrive e).result
      ((w.relocate φ).arrive e').result := by
  have hfound : (w.relocate φ).table.block? (φ e.dest) =
      (w.table.block? e.dest).map (·.relocate φ) := w.table.block?_relocate mono e.dest
  have backward : e'.dest ≤ e'.source ↔ e.dest ≤ e.source := by
    rw [h.dest_eq]
    exact h.source.le_iff mono e.dest
  unfold arrive
  rw [h.stack_eq, h.dest_eq]
  rw [h.dest_eq] at backward
  by_cases hback : e.dest ≤ e.source
  · rw [if_pos hback, if_pos (backward.mpr hback)]
    exact .ok rfl
  rw [if_neg hback, if_neg (mt backward.mp hback), hfound]
  cases w.table.block? e.dest with
  | none => exact .ok rfl
  | some block =>
    have carries : (block.relocate φ).carries = block.carries := rfl
    dsimp only [Option.map_some]
    rw [carries]
    split
    · exact .error (.inconsistentMerge _ h.source)
    let note (k : BasicBlock) : BasicBlock := { k with carries := e.stack.top?.isSome }
    have noted : ({ w.relocate φ with table := (w.relocate φ).table.modify (φ e.dest) note } : Walk) =
        ({ w with table := w.table.modify e.dest note } : Walk).relocate φ :=
      congrArg (fun t => ({ w with table := t } : Walk))
        (w.table.modify_relocate mono e.dest fun _ => rfl)
    dsimp only [note] at noted
    rw [noted]
    cases e.stack.top? with
    | none => exact .ok rfl
    | some v =>
      simp only [Traced.result_bind, Traced.result_monadLift]
      refine (mirrored_deliver mono h block v).bind fun w₁ w₁' hw => ?_
      rw [hw]
      exact .ok rfl

theorem sites_deliver {w' : Walk} {block : BasicBlock} {v : Reg}
    (h : w.deliver block e v = .ok w') : w'.table.sites = w.table.sites := by
  unfold deliver at h
  split at h
  · split at h
    · cases h; rfl
    · cases h
  · split at h
    · cases h
    · cases h
      exact BlockTable.sites_modify _ _ fun _ => rfl

theorem sites_arrive {w' : Walk} {s : OperandStack} (h : (w.arrive e).result = .ok (s, w')) :
    w'.table.sites = w.table.sites := by
  have noted (x : Bool) : (w.table.modify e.dest fun k => { k with carries := x }).sites =
      w.table.sites := BlockTable.sites_modify _ _ fun _ => rfl
  unfold arrive at h
  split at h
  · cases h; rfl
  split at h
  · cases h; rfl
  dsimp only at h
  split at h
  · cases h
  split at h
  · cases h; exact noted _
  · obtain ⟨w₁, h₁, h⟩ := Traced.result_bind_eq_ok h
    obtain ⟨_, -, h⟩ := Traced.result_bind_eq_ok h
    cases h
    exact (sites_deliver h₁).trans (noted _)

end Walk

namespace Compiler

theorem sites_follow {c : Compiler} {e : Edge} {w w' : Walk} {edges : List Edge}
    (h : (c.follow e w).result = .ok (w', edges)) : w'.table.sites = w.table.sites := by
  obtain ⟨⟨s, w₁⟩, h₁, h⟩ := Traced.result_bind_eq_ok h
  exact (sites_enter h).trans (Walk.sites_arrive h₁)

section Compile

variable {c c' : Compiler} {live : Nat → Prop} (standard : c.lowering = .standard)
  (standard' : c'.lowering = .standard) (mirrors : c.method.Mirrors φ live c'.method)

include standard standard' mirrors

theorem mirrored_follow {w : Walk} (covers : w.table.Covers c.method) {e e' : Edge}
    (h : e.Mirrors φ e') (alive : live e.dest) :
    Mirrored φ (Follows φ) (c.follow e w).result (c'.follow e' (w.relocate φ)).result := by
  have arrived := (Walk.mirrored_arrive (w := w) mirrors.mono h).and_of_ok
    (P := fun r => r.2.table.Covers c.method) fun r hr => covers.of_sites (Walk.sites_arrive hr)
  unfold follow
  simp only [Traced.result_bind]
  refine arrived.bind fun r r' hr => ?_
  obtain ⟨rfl, hcovers⟩ := hr
  rw [h.dest_eq]
  exact mirrored_enter standard standard' mirrors hcovers alive r.1

/-- The first block is entered from the same code. -/
theorem mirrored_prologue (x : ExternTable) :
    Mirrored φ (fun w w' => w' = w.relocate φ) (c.prologue x).result (c'.prologue x).result := by
  have starts := c.method.blockStarts_ascending
  have table (b : Builder) := BlockTable.ofStarts_relocate φ starts c.method.length_pos b
  have locals : Lowering.initLocals c'.method = Lowering.initLocals c.method := by
    unfold Lowering.initLocals
    rw [mirrors.params_eq, mirrors.locals_eq]
  unfold prologue
  dsimp only
  rw [mirrors.name_eq, mirrors.params_eq, mirrors.locals_eq, mirrors.starts_eq, mirrors.length_eq,
    standard, standard', table]
  generalize BlockTable.ofStarts c.method.blockStarts c.method.length
    (Builder.start c.method.name c.method.params c.method.locals x) = r
  simp only [Traced.result_bind, Traced.result_monadLift]
  refine Mirrored.bind (.ok rfl) fun _ _ _ => Mirrored.bind (.ok rfl) fun _ _ _ => ?_
  have code := Draft.mirrored_emit { builder := r.2 }
    ((Lowering.placeless_initLocals c.method).mirrored φ r.2)
  have first := r.1.mirrored_handle mirrors.mono 0 0 0
  rw [mirrors.zero] at first
  show Mirrored φ _ (({ builder := r.2 } : Draft).emit (Lowering.initLocals c.method) >>= _)
    (({ builder := r.2 } : Draft).emit (Lowering.initLocals c'.method) >>= _)
  rw [locals]
  refine code.bind fun p p' hp => first.bind fun handle handle' hhandle => ?_
  rw [hp, hhandle]
  exact .ok rfl

/-- From edges that correspond the walks go on in step, as long as they come to live blocks only. -/
theorem mirrored_visit
    (leads : ∀ start s w w' edges, w.table.Covers c.method → live start →
      (c.enter start s w).result = .ok (w', edges) → ∀ e ∈ edges, live e.dest)
    {edges edges' : List Edge} {w : Walk} (covers : w.table.Covers c.method)
    (alive : ∀ e ∈ edges, live e.dest) (h : List.Forall₂ (Edge.Mirrors φ) edges edges') :
    Mirrored φ (fun w w' => w' = w.relocate φ) (c.visit edges w).result
      (c'.visit edges' (w.relocate φ)).result := by
  fun_induction visit c edges w generalizing edges' with
  | case1 w =>
    cases h
    rw [visit]
    exact .ok rfl
  | case2 w e rest step failed =>
    rename_i found
    cases h with
    | @cons _ e' _ rest' first later =>
    have hstep := mirrored_follow standard standard' mirrors covers first (alive e List.mem_cons_self)
    rw [visit_cons, Traced.result_bind]
    rw [show (c.follow e w).result = _ from found] at hstep
    generalize (c'.follow e' (w.relocate φ)).result = r' at hstep ⊢
    cases hstep with
    | error mirrors => exact .error mirrors
  | case3 w e rest step w₁ new followed after =>
    rename_i ih
    cases h with
    | @cons _ e' _ rest' first later =>
    have hstep := mirrored_follow standard standard' mirrors covers first (alive e List.mem_cons_self)
    obtain ⟨⟨s, w₀⟩, arrived, entered⟩ := Traced.result_bind_eq_ok followed
    have hnew := leads e.dest s w₀ w₁ new (covers.of_sites (Walk.sites_arrive arrived))
      (alive e List.mem_cons_self) entered
    have hcovers := covers.of_sites (sites_follow followed)
    rw [visit_cons, Traced.result_bind]
    rw [followed] at hstep
    generalize (c'.follow e' (w.relocate φ)).result = r' at hstep ⊢
    cases hstep with
    | @ok _ p related =>
      obtain ⟨hwalk, hedges⟩ := related
      have rest := ih hcovers
        (List.forall_mem_append.mpr ⟨hnew, fun k hk => alive k (List.mem_cons_of_mem e hk)⟩)
        (List.rel_append hedges later)
      show Mirrored φ _ after.result (c'.visit (p.2 ++ rest') p.1).result
      rw [hwalk]
      exact rest

/-- Methods whose live blocks correspond are compiled in step, if the live blocks lead to live blocks
only: both compilations fail, with the same error but for positions, or they give the same function
and tables that differ in nothing but positions. -/
theorem mirrored_compile (x : ExternTable) (first : live 0)
    (leads : ∀ start s w w' edges, w.table.Covers c.method → live start →
      (c.enter start s w).result = .ok (w', edges) → ∀ e ∈ edges, live e.dest) :
    Mirrored φ (fun k k' => k'.func = k.func ∧ k'.table = k.table.relocate φ)
      (c.compile x).result (c'.compile x).result := by
  have begins := (mirrored_prologue standard standard' mirrors x).and_of_ok
    (P := fun w => w.table.Covers c.method) fun w hw =>
      (blank_of_prologue standard hw).divides.toCovers
  unfold compile
  simp only [Traced.result_bind]
  refine begins.bind fun w w' hw => ?_
  obtain ⟨rfl, covers⟩ := hw
  have entered := (mirrored_enter standard standard' mirrors covers first
    { max := c.method.stackMax }).and_of_ok (P := fun r => r.1.table.Covers c.method ∧
      ∀ e ∈ r.2, live e.dest) fun r hr =>
        ⟨covers.of_sites (sites_enter hr), leads 0 _ w r.1 r.2 covers first hr⟩
  rw [mirrors.zero, ← mirrors.stackMax_eq] at entered
  rw [← mirrors.stackMax_eq]
  refine entered.bind fun r r' hr => ?_
  obtain ⟨⟨hwalk, hedges⟩, hcovers, alive⟩ := hr
  rw [hwalk]
  refine (mirrored_visit standard standard' mirrors leads hcovers alive hedges).bind
    fun w₁ w₁' hw => ?_
  rw [hw]
  exact .ok ⟨rfl, rfl⟩

end Compile

end Compiler

/-- Methods of one frame whose instructions correspond: all of their blocks are live. -/
theorem Method.mirrors_of_corresponds {m m' : Method} (name : m'.name = m.name)
    (params : m'.params = m.params) (locals : m'.locals = m.locals)
    (stackMax : m'.stackMax = m.stackMax)
    (h : Code.Corresponds φ m.code m'.code m.instrs m'.instrs) :
    m.Mirrors φ (fun _ => True) m' where
  mono := h.mono
  zero := h.zero
  name_eq := name
  params_eq := params
  locals_eq := locals
  stackMax_eq := stackMax
  length_eq := h.length_eq
  starts_eq := blockStarts_eq_map h
  bodies _ _ b _ _ := (forall₂_instrsIn h b.start b.last).imp fun _ _ hi => hi.mirrors

end StackFlow
