import Mathlib
import StackFlow.IR.Link
import StackFlow.Proofs.IR.Append
import StackFlow.Proofs.IR.Reachable

/-!
What linking finds wrong. The builder has compared each call with one table of host functions, so
that all calls of one name have the same number of arguments, and it is enough to compare the first
of them with the table that the function is linked with. Main statement: linking reports the first of
all that is wrong with the reachable blocks (`link_built_exact`).
-/
namespace StackFlow.IR

/-! ### Calls that a builder makes -/

/-- What can be done with a builder. -/
inductive Operation
  | newBlock
  | switchTo (block : BlockId)
  | newReg (type : RegType)
  | const (bits : Word)
  | value (v : Value)
  | receiver
  | arg (index : Nat)
  | loadLocal (index : Nat)
  | storeLocal (index : Nat) (value : Reg)
  | and (left right : Reg)
  | eq (left right : Reg)
  | ne (left right : Reg)
  | phi (sources : List (BlockId × Reg))
  | addPhiSource (block : BlockId) (phi : Reg) (source : BlockId × Reg)
  | call (callee : String) (args : List Reg)
  | terminate (t : Terminator)

/-- What has failed changes nothing. -/
def Builder.perform (b : Builder) : Operation → Builder
  | .newBlock => b.newBlock.2
  | .switchTo block => b.switchTo block
  | .newReg type => (b.newReg type).2
  | .const bits => (b.const bits).2
  | .value v => (b.value v).2
  | .receiver => b.receiver.2
  | .arg index => (b.arg index).2
  | .loadLocal index => (b.loadLocal index).2
  | .storeLocal index value => b.storeLocal index value
  | .and left right => (b.and left right).2
  | .eq left right => (b.eq left right).2
  | .ne left right => (b.ne left right).2
  | .phi sources => (b.phi sources).2
  | .addPhiSource block phi source => (b.addPhiSource? block phi source).getD b
  | .call callee args => ((b.call? callee args).map Prod.snd).getD b
  | .terminate t => b.terminate t

/-- The function that is built with a table of host functions. -/
def built (name : String) (params locals : Nat) (x : ExternTable) (ops : List Operation) : Func :=
  (ops.foldl Builder.perform (Builder.start name params locals x)).func

namespace Builder

theorem mem_calls_append {b : Builder} {code : List Stmt} {q : String × Nat}
    (h : q ∈ (b.append code).func.calls) : q ∈ b.func.calls ∨ q ∈ code.filterMap Stmt.callee? := by
  obtain ⟨s, hs, hq⟩ := List.mem_filterMap.mp h
  obtain ⟨id, hid⟩ := Func.mem_stmts.mp hs
  have grown : (b.append code).func.code id ⊆ b.func.code id ++ code := by
    show ((b.func.modifyBlock b.current _).block id).stmts ⊆ _
    rw [Func.block_modifyBlock]
    split
    · exact List.Subset.refl _
    · exact List.subset_append_left ..
  rcases List.mem_append.mp (grown hid) with old | new
  · exact .inl (List.mem_filterMap.mpr ⟨s, Func.mem_stmts.mpr ⟨id, old⟩, hq⟩)
  · exact .inr (List.mem_filterMap.mpr ⟨s, new, hq⟩)

/-- An operation adds a call only if the table has a function that takes its arguments. -/
theorem calls_perform (b : Builder) (op : Operation) : (b.perform op).externs = b.externs ∧
    ∀ q ∈ (b.perform op).func.calls,
      q ∈ b.func.calls ∨ ∃ e, b.externs.resolve? q.1 q.2 = some e := by
  have same {b' : Builder} (hexterns : b'.externs = b.externs)
      (hcalls : b'.func.calls = b.func.calls) : b'.externs = b.externs ∧
        ∀ q ∈ b'.func.calls, q ∈ b.func.calls ∨ ∃ e, b.externs.resolve? q.1 q.2 = some e :=
    ⟨hexterns, fun q hq => .inl (hcalls ▸ hq)⟩
  have written {b' : Builder} {s : Stmt} (h : b' = b.append [s])
      (resolved : ∀ q ∈ s.callee?, ∃ e, b.externs.resolve? q.1 q.2 = some e) :
      b'.externs = b.externs ∧
        ∀ q ∈ b'.func.calls, q ∈ b.func.calls ∨ ∃ e, b.externs.resolve? q.1 q.2 = some e := by
    subst h
    refine ⟨rfl, fun q hq => (mem_calls_append hq).imp_right fun new => ?_⟩
    obtain ⟨s', hs', hq'⟩ := List.mem_filterMap.mp new
    rw [List.mem_singleton.mp hs'] at hq'
    exact resolved q hq'
  cases op with
  | newBlock =>
    refine same rfl ?_
    rw [Func.calls, perform, stmts_newBlock, Func.calls]
  | switchTo => exact same rfl rfl
  | newReg => exact same rfl rfl
  | const w => exact written (congrArg Prod.snd (b.const_eq_append w)) nofun
  | value v => exact written (congrArg Prod.snd (b.const_eq_append v.bits)) nofun
  | receiver => exact written (congrArg Prod.snd b.receiver_eq_append) nofun
  | arg i => exact written (congrArg Prod.snd (b.arg_eq_append i)) nofun
  | loadLocal i => exact written (congrArg Prod.snd (b.loadLocal_eq_append i)) nofun
  | storeLocal i v => exact written (b.storeLocal_eq_append i v) nofun
  | and l r => exact written (congrArg Prod.snd (b.and_eq_append l r)) nofun
  | eq l r => exact written (congrArg Prod.snd (b.eq_eq_append l r)) nofun
  | ne l r => exact written (congrArg Prod.snd (b.ne_eq_append l r)) nofun
  | phi sources => exact written (congrArg Prod.snd (b.phi_eq_append sources)) nofun
  | addPhiSource block phi source =>
    rw [perform]
    cases grown : b.addPhiSource? block phi source with
    | none => exact same rfl rfl
    | some b' =>
      obtain ⟨-, -, -, -, -, -, hexterns⟩ := addPhiSource?_eq_some grown
      exact same hexterns (filterMap_stmts_addPhiSource? grown fun _ _ _ => rfl)
  | call callee args =>
    rw [perform]
    cases made : b.call? callee args with
    | none => exact same rfl rfl
    | some out =>
      obtain ⟨known, -, hb⟩ := call?_eq_some made
      refine written hb ?_
      rintro _ ⟨⟩
      exact known
  | terminate t =>
    refine same rfl ?_
    rw [Func.calls, perform, (b.stmts_terminate t).1, Func.calls]

/-- All calls have been found in the builder's table. -/
theorem calls_foldl_perform (ops : List Operation) {b : Builder}
    (h : ∀ q ∈ b.func.calls, ∃ e, b.externs.resolve? q.1 q.2 = some e) :
    ∀ q ∈ (ops.foldl perform b).func.calls, ∃ e, b.externs.resolve? q.1 q.2 = some e := by
  induction ops generalizing b with
  | nil => exact h
  | cons op ops ih =>
    obtain ⟨hexterns, hcalls⟩ := b.calls_perform op
    rw [← hexterns]
    refine ih fun q hq => ?_
    rw [hexterns]
    exact (hcalls q hq).elim (h q) id

end Builder

/-- Calls of one name have the same number of arguments. -/
def Func.Uniform (f : Func) : Prop := ∀ p ∈ f.calls, ∀ q ∈ f.calls, p.1 = q.1 → p.2 = q.2

theorem built_uniform (name : String) (params locals : Nat) (x : ExternTable)
    (ops : List Operation) : (built name params locals x ops).Uniform := by
  have resolved := Builder.calls_foldl_perform ops (b := Builder.start name params locals x)
    (fun _ hq => nomatch hq)
  intro p hp q hq same
  obtain ⟨e, he⟩ := resolved p hp
  obtain ⟨e', he'⟩ := resolved q hq
  obtain ⟨hget, harity⟩ := Option.filter_eq_some_iff.mp he
  obtain ⟨hget', harity'⟩ := Option.filter_eq_some_iff.mp he'
  rw [same, hget'] at hget
  cases hget
  exact (eq_of_beq harity).symm.trans (eq_of_beq harity')

/-! ### What is wrong with a function -/

/-- What is wrong with a call, if the host functions are those of the table. -/
def Stmt.violation? (t : ExternTable) : Stmt → Option LinkError
  | call _ callee args =>
    match t.get? callee with
    | none => some (.unknownExtern callee)
    | some e => if e.arity = args.length then none else some (.externArity callee e.arity args.length)
  | _ => none

namespace Func

def violationsIn (f : Func) (t : ExternTable) (b : BlockId) : List LinkError :=
  (f.code b).filterMap (Stmt.violation? t) ++
    if f.exit b = .missing then [.missingTerminator b] else []

/-- All that is wrong with the reachable blocks, in the order of `reachable`. -/
def violations (f : Func) (t : ExternTable) : List LinkError :=
  f.reachable.flatMap (f.violationsIn t)

end Func

/-! ### What is reported -/

/-- The result is the first of the violations, or a good one if there is none. It may be that the name
of the function is in the way before. -/
inductive Reports {β : Type} (Good : β → Prop) : List LinkError → Except LinkError β → Prop
  | ownName (n : String) {vs : List LinkError} : Reports Good vs (.error (.ownName n))
  | first (e : LinkError) {vs : List LinkError} : Reports Good (e :: vs) (.error e)
  | ok {b : β} (good : Good b) : Reports Good [] (.ok b)

namespace Reports

variable {α β γ : Type} {Good : β → Prop} {vs ws : List LinkError}

theorem bind {Good' : γ → Prop} {r : Except LinkError β} {k : β → Except LinkError γ}
    (h : Reports Good vs r) (next : ∀ b, Good b → Reports Good' ws (k b)) :
    Reports Good' (vs ++ ws) (r >>= k) := by
  cases h with
  | ownName n => exact .ownName n
  | first e => exact .first e
  | ok good => exact next _ good

theorem foldlM {g : β → α → Except LinkError β} {wrong : α → List LinkError} {as : List α}
    (step : ∀ a ∈ as, ∀ b, Good b → Reports Good (wrong a) (g b a)) {b : β} (h : Good b) :
    Reports Good (as.flatMap wrong) (as.foldlM g b) := by
  induction as generalizing b with
  | nil => exact .ok h
  | cons a as ih =>
    obtain ⟨here, later⟩ := List.forall_mem_cons.mp step
    rw [List.foldlM_cons, List.flatMap_cons]
    exact (here b h).bind fun b' h' => ih later h'

end Reports

namespace Func

variable {f : Func} {t : ExternTable} {known : List String}

/-- Nothing is wrong with the calls of the known names. -/
def Checked (f : Func) (t : ExternTable) (known : List String) : Prop :=
  ∀ q ∈ f.calls, q.1 ∈ known → ∃ e, t.get? q.1 = some e ∧ e.arity = q.2

theorem linkStmt_reports (uniform : f.Uniform) {s : Stmt} (hs : s ∈ f.stmts)
    (checked : f.Checked t known) :
    Reports (f.Checked t) (s.violation? t).toList (f.linkStmt t known s) := by
  cases s with
  | call d callee args =>
    have called : (callee, args.length) ∈ f.calls := List.mem_filterMap.mpr ⟨_, hs, rfl⟩
    unfold linkStmt linkCall Stmt.violation?
    dsimp only
    by_cases cached : callee ∈ known
    · obtain ⟨e, found, arity⟩ := checked _ called cached
      dsimp only at found arity
      rw [if_pos cached, found]
      dsimp only
      rw [if_pos arity]
      exact .ok checked
    · rw [if_neg cached]
      cases found : t.get? callee with
      | none => exact .first _
      | some e =>
        dsimp only
        by_cases arity : e.arity = args.length
        · rw [if_neg (not_not.mpr arity), if_pos arity]
          split
          · exact .ownName _
          · -- the calls of this name that follow have the number of arguments of this one
            refine .ok fun q hq hknown => ?_
            rcases List.mem_cons.mp hknown with same | old
            · have count := uniform q hq _ called same
              exact ⟨e, same ▸ found, arity.trans count.symm⟩
            · exact checked q hq old
        · rw [if_pos arity, if_neg arity]
          exact .first _
  | _ => exact .ok checked

theorem linkBlock_reports (uniform : f.Uniform) (b : BlockId) (checked : f.Checked t known) :
    Reports (f.Checked t) (f.violationsIn t b) (f.linkBlock t known b) := by
  unfold linkBlock violationsIn
  rw [List.filterMap_eq_flatMap_toList]
  have stmts := Reports.foldlM (fun s hs known (checked : f.Checked t known) =>
    linkStmt_reports uniform (mem_stmts.mpr ⟨b, hs⟩) checked) checked
  refine stmts.bind fun known' checked' => ?_
  unfold exit
  split
  · exact .first _
  · exact .ok checked'

/-- No violation is lost because a name is known already. -/
theorem imports_reports (uniform : f.Uniform) :
    Reports (f.Checked t) (f.violations t) (f.imports t) := by
  have start : f.Checked t [] := fun _ _ hq => absurd hq List.not_mem_nil
  exact Reports.foldlM (fun b _ _ => linkBlock_reports uniform b) start

theorem link_eq_of_uniform (uniform : f.Uniform)
    (accepted : ∀ n, f.link t ≠ .error (.ownName n)) :
    f.link t = match f.violations t with
      | [] => .ok ⟨f, t⟩
      | e :: _ => .error e := by
  have reports := imports_reports (t := t) uniform
  unfold link at accepted ⊢
  generalize f.imports t = r at accepted reports ⊢
  generalize f.violations t = vs at reports ⊢
  cases reports with
  | ownName n => exact absurd rfl (accepted n)
  | first e => rfl
  | ok good => rfl

theorem link_eq_ok_iff_of_uniform (uniform : f.Uniform)
    (accepted : ∀ n, f.link t ≠ .error (.ownName n)) :
    f.link t = .ok ⟨f, t⟩ ↔ f.violations t = [] := by
  rw [link_eq_of_uniform uniform accepted]
  cases f.violations t <;> simp

theorem violation?_eq_none_iff {d : Reg} {callee : String} {args : List Reg} :
    (Stmt.call d callee args).violation? t = none ↔
      ∃ e, t.get? callee = some e ∧ e.arity = args.length := by
  unfold Stmt.violation?
  dsimp only
  cases t.get? callee <;> simp

theorem violations_eq_nil_iff : f.violations t = [] ↔ ∀ b ∈ f.reachable,
    (∀ d callee args, .call d callee args ∈ f.code b →
      ∃ e, t.get? callee = some e ∧ e.arity = args.length) ∧ f.exit b ≠ .missing := by
  have block (b : BlockId) : f.violationsIn t b = [] ↔ (∀ d callee args,
      .call d callee args ∈ f.code b → ∃ e, t.get? callee = some e ∧ e.arity = args.length) ∧
        f.exit b ≠ .missing := by
    rw [violationsIn, List.append_eq_nil_iff, List.filterMap_eq_nil_iff]
    refine and_congr ⟨fun h d callee args hs => ?_, fun h s hs => ?_⟩ (by simp)
    · exact violation?_eq_none_iff.mp (h _ hs)
    · cases s with
      | call d callee args => exact violation?_eq_none_iff.mpr (h d callee args hs)
      | _ => rfl
  simp only [violations, List.flatMap_eq_nil_iff, block]

end Func

/-- A function is built with one table of host functions and linked with another one, and no host
function stands in the way of the function's own name. Then linking reports the first that is wrong
with the reachable blocks, whatever was called before: the host function is not there, or takes
another number of arguments, or the block has no end. It succeeds just if nothing is wrong with a
block that a path from the entry comes to. -/
theorem link_built_exact (name : String) (params locals : Nat) (x : ExternTable)
    (ops : List Operation) (t : ExternTable)
    (accepted : ∀ n, (built name params locals x ops).link t ≠ .error (.ownName n)) :
    let f := built name params locals x ops
    (f.link t = match f.violations t with
      | [] => .ok ⟨f, t⟩
      | e :: _ => .error e) ∧
    (f.link t = .ok ⟨f, t⟩ ↔ ∀ b before, f.Path (b :: before) →
      (∀ d callee args, .call d callee args ∈ f.code b →
        ∃ e, t.get? callee = some e ∧ e.arity = args.length) ∧ f.exit b ≠ .missing) := by
  intro f
  have uniform : f.Uniform := built_uniform name params locals x ops
  refine ⟨Func.link_eq_of_uniform uniform accepted, ?_⟩
  rw [Func.link_eq_ok_iff_of_uniform uniform accepted, Func.violations_eq_nil_iff]
  simp only [Func.mem_reachable, forall_exists_index]

/-- `bb0: f(nil); f(nil); jump bb2`, `bb1: h()` without an end, `bb2: g(nil, nil); return`; the call of
`absent` fails. -/
def callingSteps : List Operation :=
  [.value .nil, .newBlock, .newBlock, .call "f" [⟨0⟩], .call "f" [⟨0⟩], .terminate (.jump ⟨2⟩),
    .switchTo ⟨1⟩, .call "absent" [], .call "h" [], .switchTo ⟨2⟩, .call "g" [⟨0⟩, ⟨0⟩],
    .terminate (.ret ⟨0⟩)]

def callees : ExternTable := ⟨[⟨"f", 1, .absent⟩, ⟨"g", 2, .absent⟩, ⟨"h", 0, .absent⟩]⟩

/-- A table without what is called only in a block that is not reached. -/
def fewCallees : ExternTable := ⟨[⟨"g", 2, .throw⟩, ⟨"f", 1, .funcall⟩]⟩

/-- A table with another `g`. -/
def otherCallees : ExternTable := ⟨[⟨"g", 3, .absent⟩, ⟨"f", 1, .absent⟩]⟩

def calling : Func := built "calling" 0 0 callees callingSteps

theorem calling_linked :
    (∀ n, calling.link fewCallees ≠ .error (.ownName n)) ∧
    calling.link fewCallees = .ok ⟨calling, fewCallees⟩ ∧
    (∀ n, calling.link otherCallees ≠ .error (.ownName n)) ∧
    calling.link otherCallees = .error (.externArity "g" 3 2) := by
  have imported : calling.imports fewCallees = .ok ["g", "f"] := by cbv
  have refused : calling.imports otherCallees = .error (.externArity "g" 3 2) := by cbv
  have few : ∀ n, calling.link fewCallees ≠ .error (.ownName n) := by
    rw [Func.link, imported]
    simp [Except.map]
  have other : ∀ n, calling.link otherCallees ≠ .error (.ownName n) := by
    rw [Func.link, refused]
    simp [Except.map]
  have nothing : calling.violations fewCallees = [] := by cbv
  have another : calling.violations otherCallees = [.externArity "g" 3 2] := by cbv
  have linked := (link_built_exact "calling" 0 0 callees callingSteps fewCallees few).1
  have failed := (link_built_exact "calling" 0 0 callees callingSteps otherCallees other).1
  rw [← calling, nothing] at linked
  rw [← calling, another] at failed
  exact ⟨few, linked, other, failed⟩

end StackFlow.IR
