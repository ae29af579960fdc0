import StackFlow.Proofs.IR.Linked
import StackFlow.Proofs.Walk.Graph
import StackFlow.Proofs.Walk.Simulation
import StackFlow.Proofs.Walk.WellFormed
import StackFlow.Session

/-!
The exception that waits. Compiled code calls the function that throws in one place only, right before
the return of an exit that throws. Main statement: a call leaves the exception of the exit that it
executed and none otherwise, whatever waited before, and one with a wrong number of arguments changes
nothing (`serveAll_keeps`). This needs that the call is one of the host's function: a method with the
name of that function calls itself instead, and its exception is lost (`namesake_loses_exception`). Of
the host's functions only two have a name that can be a method's own (`Callable.name_of_callsItself`).
-/
namespace StackFlow

open IR (Reg Stmt BlockId Func Terminator Machine Calls Input Outcome dests execAll)

namespace ExternTable

theorem funcallName_ne_throwName (count : Nat) : funcallName count ≠ throwName := by
  intro h
  have hthrow : (funcallName count).toList[7]? = some 't' := by rw [h]; rfl
  have hfuncall : (funcallName count).toList[7]? = some 'f' := by
    show ("basalt_funcall_" ++ toString count).toList[7]? = _
    rw [String.toList_append, List.getElem?_append_left (by decide)]
    rfl
  rw [hfuncall] at hthrow
  cases hthrow

/-- Sending a method changes nothing on the host's side. -/
theorem call_funcall (count : Nat) (args : List Word) (h : Host) :
    (standard.call (funcallName count) args h).2 = h := by
  unfold call
  split
  next e found =>
    obtain ⟨he, hname⟩ : e ∈ standard.entries ∧ e.name = funcallName count :=
      ⟨List.mem_of_find?_eq_some found, by simpa using List.find?_some found⟩
    refine HostFn.call_pending_of_ne_throw ?_ args h
    rintro hfn
    have hthrow : e.name = throwName := by
      simp only [standard, List.mem_cons, List.not_mem_nil, or_false] at he
      rcases he with rfl | rfl | rfl | rfl | rfl <;> first | rfl | cases hfn
    exact funcallName_ne_throwName count (hname.symm.trans hthrow)
  next =>
    have pure : HostFn.absent ≠ .throw := nofun
    exact HostFn.call_pending_of_ne_throw pure args h

theorem call_throw (state v : Word) (h : Host) :
    standard.call throwName [state, v] h = (Value.undef.bits, h.throw state ⟨v⟩) := rfl

end ExternTable

/-! ### What code does to the host -/

section

variable (input : Input) (k : Machine Host)

theorem Straight.host_eq {x : ExternTable} {max n : Nat} {i : Instr} {s t : List Reg} {c : List Stmt}
    (h : Straight x max i n s c t) :
    (execAll ExternTable.standard.call input c k).host = k.host := by
  cases h with
  | send => exact ExternTable.call_funcall _ _ _
  | _ => rfl

theorem Straights.host_eq {x : ExternTable} {max n : Nat} {is : List Instr} {s t : List Reg}
    {c : List Stmt} (h : Straights x max is n s c t) :
    (execAll ExternTable.standard.call input c k).host = k.host := by
  induction h generalizing k with
  | nil => rfl
  | cons first _ ih => rw [IR.execAll_append, ih, first.host_eq]

theorem Ending.host_eq {m : Method} {x : ExternTable} {t : BlockTable} {trap : Option BlockId}
    {b : BasicBlock} {n : Nat} {exit? : Option (Instr × Control)} {s : OperandStack}
    {code : List Stmt} {term : Terminator} {edges : List Edge}
    (h : Ending m x t trap b n exit? s code term edges) (goes : ∀ r, term ≠ .ret r) :
    (execAll ExternTable.standard.call input code k).host = k.host := by
  cases h with
  | @branch _ kind => cases kind <;> rfl
  | leave => exact absurd rfl (goes _)
  | throw => exact absurd rfl (goes _)
  | _ => rfl

end

/-! ### The exit that a call executes -/

/-- From the frame on, the code comes to an exit no later than at `last`, with `v` alone on the
stack. -/
def Method.Leaves {σ : Type} (m : Method) (calls : Calls σ) (receiver : Value) (last : Nat)
    (f : Frame σ) (kind : ExitKind) (v : Value) : Prop :=
  ∃ n g, (m.advance calls receiver)^[n] (.running f) = .running g ∧ g.stack = [v] ∧
    ∃ i ∈ m.instrs, i.opcode.control = some (.exit kind) ∧ g.position = i.position ∧
      f.position ≤ i.position ∧ i.position ≤ last

/-- The frame that the registers hold on entry of the block. -/
def Visit.frame {σ : Type} (v : Visit) (locals : Nat) (k : Machine σ) : Frame σ where
  position := v.start
  stack := v.opened.regs.map fun r => ⟨k.get r⟩
  locals := (List.range locals).map fun n => ⟨k.locals.get n⟩
  host := k.host

/-- The last block that the call executes is that of a basic block whose code comes, with what the
registers hold on its entry, to an exit with `v` alone on the stack. -/
def Journal.Exits {σ : Type} (j : Journal) (m : Method) (calls : Calls σ) (input : Input) (host : σ)
    (kind : ExitKind) (v : Value) : Prop :=
  ∃ past k, ∃ u ∈ j.visits, j.func.Executes calls input host past u.handle k ∧
    (∃ o, (j.func.step calls input u.handle k).1 = .stop o) ∧
    m.Leaves calls ⟨input.receiver⟩ u.block.last (u.frame m.locals k) kind v

section

variable {σ : Type} {calls : Calls σ} {input : Input}

theorem Visit.held_frame (v : Visit) (locals : Nat) (k : Machine σ) :
    (v.frame locals k).Held locals v.opened.regs k where
  stack := rfl
  count := by simp [frame]
  locals n w h := by
    obtain ⟨i, hi, rfl⟩ : ∃ i, (List.range locals)[n]? = some i ∧ (⟨k.locals.get i⟩ : Value) = w := by
      simpa [frame] using h
    obtain ⟨hlt, rfl⟩ := List.getElem?_eq_some_iff.mp hi
    rw [List.getElem_range]
  host := rfl

/-- An exit ends the call. -/
theorem Method.Leaves.unique {m : Method} {receiver : Value} {last : Nat} {f : Frame σ}
    {kind kind' : ExitKind} {v v' : Value} (h : m.Leaves calls receiver last f kind v)
    (h' : m.Leaves calls receiver last f kind' v') : kind = kind' ∧ v = v' := by
  have ends {g : Frame σ} {i : Instr} {kind : ExitKind} {v : Value} (hi : i ∈ m.instrs)
      (control : i.opcode.control = some (.exit kind)) (hp : g.position = i.position)
      (only : g.stack = [v]) : ∃ o host, m.advance calls receiver (.running g) = .ended o host := by
    have hstep : m.advance calls receiver (.running g) = g.transfer calls i (.exit kind) := by
      show m.step calls receiver g = _
      rw [Method.step_eq hi hp, control]
    cases kind with
    | leave => exact ⟨_, _, hstep.trans (Frame.transfer_leave only)⟩
    | throw => exact ⟨_, _, hstep.trans (Frame.transfer_throw only)⟩
  have early {n n' : Nat} {g g' : Frame σ} {o : Outcome} {host : σ}
      (hn : (m.advance calls receiver)^[n] (.running f) = .running g)
      (hend : m.advance calls receiver (.running g) = .ended o host)
      (hn' : (m.advance calls receiver)^[n'] (.running f) = .running g') : n' ≤ n := by
    by_contra hlt
    obtain ⟨d, hd⟩ := Nat.exists_eq_add_of_lt (Nat.lt_of_not_le hlt)
    have hsplit : n' = d + (n + 1) := by omega
    rw [hsplit, Function.iterate_add_apply, Function.iterate_succ_apply', hn, hend,
      Method.advance_iterate_ended] at hn'
    cases hn'
  obtain ⟨n, g, hn, only, i, hi, control, hp, -⟩ := h
  obtain ⟨n', g', hn', only', i', hi', control', hp', -⟩ := h'
  obtain ⟨o, host, hend⟩ := ends hi control hp only
  obtain ⟨o', host', hend'⟩ := ends hi' control' hp' only'
  obtain rfl := Nat.le_antisymm (early hn' hend' hn) (early hn hend hn')
  rw [hn] at hn'
  cases hn'
  have hfound := Method.instrAt?_eq_some_iff.mpr ⟨hi, hp.symm⟩
  rw [Method.instrAt?_eq_some_iff.mpr ⟨hi', hp'.symm⟩] at hfound
  cases hfound
  rw [control] at control'
  cases control'
  rw [only] at only'
  cases only'
  exact ⟨rfl, rfl⟩

end

/-- A block that ends in a return goes through its straight code to an exit. Of that code only the
throw changes the host. -/
theorem Visit.Remains.leaves {m : Method} {t : BlockTable} {trap : Option BlockId} {v : Visit}
    {p n : Nat} {r : List Reg} {q : Reg} {code : List Stmt}
    (h : v.Remains m .standard t trap (.ret q) p n r code) (input : Input)
    (room : v.opened.max = m.stackMax) {f : Frame Host} {k : Machine Host}
    (hf : f.Held m.locals r k) (hp : f.position = p) (below : ∀ q ∈ r, q.index < n)
    (fits : r.length ≤ v.opened.max) :
    let done := execAll ExternTable.standard.call input code k
    (∃ w state, m.Leaves ExternTable.standard.call ⟨input.receiver⟩ v.block.last f .throw w ∧
      done.get q = Value.undef.bits ∧ done.host = k.host.throw state w) ∨
    m.Leaves ExternTable.standard.call ⟨input.receiver⟩ v.block.last f .leave ⟨done.get q⟩ ∧
      done.host = k.host := by
  generalize hterm : Terminator.ret q = term at h
  induction h generalizing f k with
  | @straight i n r r' c code mem inside plain lowered rest ih =>
    obtain ⟨f', hstep, hposition, hheld⟩ :=
      lowered.advance ExternTable.standard.call input mem plain room hf hp below fits
    have later {kind : ExitKind} {w : Value}
        (h : m.Leaves ExternTable.standard.call ⟨input.receiver⟩ v.block.last f' kind w) :
        m.Leaves ExternTable.standard.call ⟨input.receiver⟩ v.block.last f kind w := by
      obtain ⟨count, g, hg, only, i', hi', control, hpos, hle, hlast⟩ := h
      refine ⟨count + 1, g, ?_, only, i', hi', control, hpos, ?_, hlast⟩
      · rw [Function.iterate_succ_apply, hstep, hg]
      · have := i.position_lt_next
        omega
    rw [IR.execAll_append, ← lowered.host_eq input k]
    rcases ih hheld hposition (lowered.below below) (lowered.length_le fits) with
      ⟨w, state, hleaves, hthrown⟩ | ⟨hleaves, hsame⟩
    · exact .inl ⟨w, state, later hleaves, hthrown⟩
    · exact .inr ⟨later hleaves, hsame⟩
  | @transfer i control n s code mem inside transfers ending =>
    subst hterm
    obtain ⟨i', u, hs, hexit⟩ := ending.of_ret
    rw [hs] at hf below
    have here {kind : ExitKind} (exits : some (i, control) = some (i', .exit kind)) :
        m.Leaves ExternTable.standard.call ⟨input.receiver⟩ v.block.last f kind ⟨k.get u⟩ := by
      cases exits
      exact ⟨0, f, rfl, hf.stack, i, mem, transfers, hp, Nat.le_of_eq hp, inside⟩
    rcases hexit with ⟨exits, rfl, rfl⟩ | ⟨exits, rfl, rfl⟩
    · exact .inr ⟨here exits, rfl⟩
    · have hne : u ≠ ⟨n⟩ := by
        rintro rfl
        exact Nat.lt_irrefl n (below _ List.mem_cons_self)
      have hargs : [⟨n⟩, u].map (k.set ⟨n⟩ (i'.word 0)).get = [i'.word 0, k.get u] := by
        simp [Machine.get_set, hne]
      refine .inl ⟨⟨k.get u⟩, i'.word 0, here exits, ?_⟩
      simp only [IR.execAll_cons, IR.execAll_nil, Stmt.exec, hargs, ExternTable.call_throw]
      exact ⟨by rw [Machine.get_set, if_pos rfl], rfl⟩
  | stop _ ending =>
    subst hterm
    obtain ⟨_, _, _, ⟨exits, -⟩ | ⟨exits, -⟩⟩ := ending.of_ret <;> cases exits

namespace Journal

variable {c : Compiler} {j : Journal} {input : Input}

theorem Exits.unique {x : ExternTable} {σ : Type} {calls : Calls σ} {host : σ}
    {kind kind' : ExitKind} {v v' : Value} (h : j.Final c x)
    (hv : j.Exits c.method calls input host kind v) (hv' : j.Exits c.method calls input host kind' v') :
    kind = kind' ∧ v = v' := by
  obtain ⟨past, k, u, hu, hexec, ⟨o, hstop⟩, hleaves⟩ := hv
  obtain ⟨past', k', u', hu', hexec', ⟨o', hstop'⟩, hleaves'⟩ := hv'
  obtain ⟨hhandle, rfl⟩ := hexec.last_unique hstop hexec' hstop'
  obtain rfl := h.reached.linked.eq_of_handle_eq h.divides hu hu' hhandle
  exact hleaves.unique hleaves'

namespace Final

variable {host : Host}

/-- A block that hands control on leaves the host as it was. -/
theorem host_block (h : j.Final c .standard) (b : BlockId) (goes : ∀ r, j.func.exit b ≠ .ret r)
    (k : Machine Host) :
    (execAll ExternTable.standard.call input (j.func.code b) k).host = k.host := by
  by_cases hb : b = Func.entry
  · rw [hb, h.reached.coded.entry]
    exact (Lowering.localsCode_exec ExternTable.standard.call input c.method c.method.locals k).2
  · by_cases hv : ∃ v ∈ j.visits, v.handle = b
    · obtain ⟨v, hv, rfl⟩ := hv
      obtain ⟨code, hcode, straight, ending, s, rfl, -, hstraight, hending⟩ :=
        h.reached.coded.filled v hv
      rw [hcode, IR.execAll_append, IR.execAll_append, IR.execAll_phis (v.opened.phis_isPhi _),
        hending.host_eq _ _ goes, hstraight.host_eq]
    · rw [h.reached.coded.elsewhere b hb fun v hv' he => hv ⟨v, hv', he⟩]
      rfl

/-- Until its last block a call leaves the host as it was. -/
theorem host_of_executes (h : j.Final c .standard) {past : List (BlockId × Machine Host)} {b : BlockId}
    {k : Machine Host} (he : j.func.Executes ExternTable.standard.call input host past b k) :
    k.host = host := by
  induction he with
  | start => rfl
  | @step past b b' k k' _ next ih =>
    rw [Func.step_eq] at next
    obtain ⟨hnext, rfl⟩ := Prod.mk.inj next
    have goes (r : Reg) : j.func.exit b ≠ .ret r := by
      intro he
      rw [he] at hnext
      cases hnext
    rw [(Machine.copy_frame _ _).2, h.host_block b goes, ih]

/-- Only blocks that were entered return. -/
theorem exists_visit_of_ret (h : j.Final c .standard) {b : BlockId} {r : Reg}
    (hexit : j.func.exit b = .ret r) : ∃ u ∈ j.visits, u.handle = b := by
  by_cases hreach : b ∈ j.func.reachable
  · rcases h.mem_reachable.mp hreach with rfl | hvisit | htrap
    · obtain ⟨target, -, hjump⟩ := h.reached.coded.start
      rw [hjump] at hexit
      cases hexit
    · exact hvisit
    · rw [(h.code_trap htrap).2.1] at hexit
      cases hexit
  · rw [(h.idle_of_not_reachable hreach).2] at hexit
    cases hexit

theorem copies_of_ret (h : j.Final c .standard) {u : Visit} (hu : u ∈ j.visits) {r : Reg}
    (hexit : j.func.exit u.handle = .ret r) : j.func.copies u.handle = [] := by
  rw [List.eq_nil_iff_forall_not_mem]
  rintro ⟨d, q⟩ hm
  obtain ⟨e, he, -⟩ := (h.mem_copies_handle hu).mp hm
  obtain ⟨code, -, hlaid⟩ := h.reached.coded.filled u hu
  obtain ⟨target, htarget, -⟩ := hlaid.exists_target h.divides he
  rw [hexit] at htarget
  cases htarget

/-- A call that returns has executed a throw or a leave, and only a throw has changed the host. -/
theorem exits_of_run (h : j.Final c .standard) {fuel : Nat} {w : Word} {host' : Host}
    (hrun : j.func.run ExternTable.standard.call input host fuel = some (.returned w, host')) :
    (∃ v state, j.Exits c.method ExternTable.standard.call input host .throw v ∧
      w = Value.undef.bits ∧ host' = host.throw state v) ∨
    j.Exits c.method ExternTable.standard.call input host .leave ⟨w⟩ ∧ host' = host := by
  obtain ⟨hend, hhost⟩ := (Func.run_eq_some_iff _).mp hrun
  rcases j.func.executes_of_after fuel with
    ⟨_, _, _, _, hafter⟩ | ⟨past, b, k, hexec, o, hstop, hafter⟩
  · rw [hafter] at hend
    cases hend
  rw [hafter] at hend hhost
  obtain ⟨r, hexit⟩ : ∃ r, j.func.exit b = .ret r := by
    rw [Func.step_eq] at hend
    cases he : j.func.exit b with
    | ret r => exact ⟨r, rfl⟩
    | _ => rw [he] at hend; cases hend
  obtain ⟨u, hu, rfl⟩ := h.exists_visit_of_ret hexit
  obtain ⟨code, hcode, hremains⟩ := h.remains hu
  obtain ⟨hmax, hdepth⟩ := h.depth_le u hu
  rw [hexit] at hremains
  have hleaves := hremains.leaves input hmax (u.held_frame c.method.locals k) rfl
    (h.reached.ranged.below u hu) (Nat.le_trans hdepth (Nat.le_of_eq hmax.symm))
  rw [Func.step_eq, hexit, h.copies_of_ret hu hexit, hcode, IR.execAll_append,
    IR.execAll_phis (u.opened.phis_isPhi _)] at hend hhost
  obtain rfl : (execAll ExternTable.standard.call input code k).get r = w := by
    cases hend
    rfl
  obtain rfl : (execAll ExternTable.standard.call input code k).host = host' := hhost
  rw [h.host_of_executes hexec] at hleaves
  rcases hleaves with ⟨v, state, hthrow, hundef, hthrown⟩ | ⟨hleave, hsame⟩
  · exact .inl ⟨v, state, ⟨past, k, u, hu, hexec, ⟨o, hstop⟩, hthrow⟩, hundef, hthrown⟩
  · exact .inr ⟨⟨past, k, u, hu, hexec, ⟨o, hstop⟩, hleave⟩, hsame⟩

end Final

end Journal

/-! ### Calls and requests -/

namespace Engine

theorem compile_result (e : Engine) (m : Method) : (e.compile m).result = (do
    let k ← (Compiler.compile ⟨m, .standard, e.config.listUnsupported⟩ e.externs).result.mapError
      BuildError.compile
    (k.func.link e.externs).mapError fun err => .codegen (.lowering k.func.name err)) := by
  change _ = (do
    let k ← (e.toolchain.compile m).result.mapError BuildError.compile
    (k.func.link e.toolchain.externs).mapError fun err => .codegen (.lowering k.func.name err))
  unfold compile
  rw [Traced.result_bind]
  unfold Toolchain.build Backend.native
  generalize e.toolchain.compile m = compiled
  obtain ⟨events, result⟩ := compiled
  cases result with
  | error err => rfl
  | ok k =>
    dsimp only [Traced.mapError, Except.mapError, bind, Except.bind]
    cases k.func.link e.toolchain.externs with
    | error err => rfl
    | ok x =>
      dsimp only [Except.map]
      split <;> rfl

/-- What the engine makes callable is what the method compiles to, linked. -/
theorem compile_eq_ok_iff {e : Engine} {m : Method} {x : IR.Executable} :
    (e.compile m).result = .ok x ↔
      ∃ k, (Compiler.compile ⟨m, .standard, e.config.listUnsupported⟩ e.externs).result = .ok k ∧
        k.func.link e.externs = .ok x := by
  rw [compile_result]
  cases (Compiler.compile ⟨m, .standard, e.config.listUnsupported⟩ e.externs).result with
  | error err => exact ⟨nofun, nofun⟩
  | ok k =>
    simp only [Except.mapError, bind, Except.bind, Except.ok.injEq, exists_eq_left']
    cases k.func.link e.externs <;> simp

end Engine

namespace Callable

def compiler (k : Callable) : Compiler :=
  ⟨k.method, .standard, k.engine.config.listUnsupported⟩

/-- The call, where it returns, executes an exit of the kind with the value `v`. On the way it calls the
functions of the host. -/
def Exits (k : Callable) (receiver : Value) (args : List Value) (host : Host) (kind : ExitKind)
    (v : Value) : Prop :=
  ∃ j, k.compiler.journal .standard = .ok j ∧ j.Exits k.method ExternTable.standard.call
    ⟨receiver.bits, args.map Value.bits⟩ host kind v

theorem exists_journal (k : Callable) :
    ∃ j, k.compiler.journal .standard = .ok j ∧ k.executable = ⟨j.func, .standard⟩ := by
  obtain ⟨compiled, haccepted, hlink⟩ := Engine.compile_eq_ok_iff.mp k.made
  rw [k.standard] at haccepted hlink
  obtain ⟨j, hj, rfl⟩ := Compiler.journal_of_compile haccepted
  exact ⟨j, hj, (Func.link_eq_ok_iff.mp hlink).2⟩

/-- A method that is linked with itself has one of two names: the other functions of the host take more
words than a method. -/
theorem name_of_callsItself (k : Callable) (own : k.executable.func.CallsItself) :
    k.executable.func.name = ExternTable.throwName ∨
      k.executable.func.name = ExternTable.funcallName 0 := by
  obtain ⟨j, hj, hx⟩ := k.exists_journal
  obtain ⟨compiled, -, hlink⟩ := Engine.compile_eq_ok_iff.mp k.made
  rw [k.standard] at hlink
  have hfunc : compiled.func = j.func :=
    congrArg IR.Executable.func ((Func.link_eq_ok_iff.mp hlink).2.symm.trans hx)
  rw [hfunc] at hlink
  rw [hx] at own ⊢
  obtain ⟨⟨name, n⟩, hcall, hname⟩ := List.mem_map.mp own
  obtain rfl : name = j.func.name := hname
  obtain ⟨s, hs, hcallee⟩ := List.mem_filterMap.mp hcall
  obtain ⟨b, hb⟩ := Func.mem_stmts.mp hs
  have reached : b ∈ j.func.reachable := by
    by_contra hb'
    rw [((Journal.final_of_journal rfl hj).idle_of_not_reachable hb').1] at hb
    cases hb
  obtain ⟨e, found, arity⟩ := Func.own_of_link hlink reached hb hcallee
  have hmem : e ∈ ExternTable.standard.entries := List.mem_of_find?_eq_some found
  have he : e.name = j.func.name := by simpa using List.find?_some found
  simp only [ExternTable.standard, List.mem_cons, List.not_mem_nil, or_false] at hmem
  rcases hmem with rfl | rfl | rfl | rfl | rfl
  · exact .inr he.symm
  · cases arity
  · cases arity
  · cases arity
  · exact .inl he.symm

/-- What a call with the right number of arguments does when it returns. -/
structure Returned (k : Callable) (receiver : Value) (args : List Value) (before : Host) (w : Value)
    (after : Host) : Prop where
  exits : ∃ kind v, k.Exits receiver args before.clear kind v
  pending_iff : ∀ v, after.pending = some v ↔ k.Exits receiver args before.clear .throw v
  of_throw : ∀ v, k.Exits receiver args before.clear .throw v → w = .undef
  of_leave : ∀ v, k.Exits receiver args before.clear .leave v → w = v ∧ after.pending = none

theorem returned_of_call (k : Callable) (foreign : ¬ k.executable.func.CallsItself)
    {receiver : Value} {args : List Value} {before after : Host} {fuel : Nat} {memory : IR.Memory}
    {w : Value} (h : k.executable.call receiver args before fuel memory = (.value w, after)) :
    k.Returned receiver args before w after := by
  obtain ⟨j, hj, hx⟩ := k.exists_journal
  have final := Journal.final_of_journal rfl hj
  have unique {kind kind' : ExitKind} {v v' : Value} (hv : k.Exits receiver args before.clear kind v)
      (hv' : k.Exits receiver args before.clear kind' v') : kind = kind' ∧ v = v' := by
    obtain ⟨j₁, hj₁, hv⟩ := hv
    obtain ⟨j₂, hj₂, hv'⟩ := hv'
    obtain rfl : j = j₁ := Except.ok.inj (hj.symm.trans hj₁)
    obtain rfl : j = j₂ := Except.ok.inj (hj.symm.trans hj₂)
    exact hv.unique final hv'
  obtain ⟨u, hrun, rfl⟩ : ∃ u, j.func.run ExternTable.standard.call
      ⟨receiver.bits, args.map Value.bits⟩ before.clear fuel = some (.returned u, after) ∧
        w = ⟨u⟩ := by
    unfold IR.Executable.call at h
    rw [IR.Executable.run_eq foreign, hx] at h
    dsimp only at h
    split at h
    next u after' hrun => cases h; exact ⟨u, hrun, rfl⟩
    next => cases h
    next => cases h
  rcases final.exits_of_run hrun with ⟨v, state, hthrow, rfl, rfl⟩ | ⟨hleave, rfl⟩
  · have hexits : k.Exits receiver args before.clear .throw v := ⟨j, hj, hthrow⟩
    refine ⟨⟨_, _, hexits⟩, fun v' => ⟨?_, fun hv' => ?_⟩, fun _ _ => rfl, fun v' hv' => ?_⟩
    · intro hpending
      cases hpending
      exact hexits
    · exact congrArg some (unique hexits hv').2
    · cases (unique hexits hv').1
  · have hexits : k.Exits receiver args before.clear .leave ⟨u⟩ := ⟨j, hj, hleave⟩
    refine ⟨⟨_, _, hexits⟩, fun v' => ⟨nofun, fun hv' => ?_⟩, fun v' hv' => ?_, fun v' hv' => ?_⟩
    · cases (unique hexits hv').1
    · cases (unique hexits hv').1
    · exact ⟨(unique hexits hv').2, rfl⟩

end Callable

/-- The request got an answer: the call neither trapped nor went on for longer than it was given. -/
def Reply.Complete : Reply → Prop
  | called .trapped | called .unfinished => False
  | called (.value _) | called (.refused _) | taken _ => True

/-- What a request does to the exception that waits. -/
def Exchange.Keeps (e : Exchange) : Prop :=
  match e.request with
  | .take => e.reply = .taken e.before.pending ∧ e.after.pending = none
  | .invoke k receiver args _ _ =>
    if args.length = k.executable.func.params then
      ∃ w, e.reply = .called (.value w) ∧ k.Returned receiver args e.before w e.after
    else
      e.reply = .called (.refused ⟨k.executable.func.name, k.executable.func.params, args.length⟩) ∧
        e.after.pending = e.before.pending

/-- The method that is called has a call of its own name. -/
def Request.CallsItself : Request → Prop
  | invoke k _ _ _ _ => k.executable.func.CallsItself
  | take => False

theorem Request.keeps_serve (r : Request) (h : Host) (complete : (r.serve h).1.Complete)
    (foreign : ¬ r.CallsItself) : Exchange.Keeps ⟨r, h, (r.serve h).1, (r.serve h).2⟩ := by
  cases r with
  | take => exact ⟨rfl, rfl⟩
  | invoke k receiver args fuel memory =>
    unfold Exchange.Keeps
    dsimp only
    split
    next hcount =>
      have hserve : Request.serve h (.invoke k receiver args fuel memory) =
          (.called (k.executable.call receiver args h fuel memory).1,
            (k.executable.call receiver args h fuel memory).2) := by
        unfold Request.serve IR.Executable.invoke
        dsimp only
        rw [if_pos hcount]
      rw [hserve] at complete ⊢
      cases hcall : k.executable.call receiver args h fuel memory with
      | mk result after =>
        rw [hcall] at complete
        cases result with
        | value w => exact ⟨w, rfl, k.returned_of_call foreign hcall⟩
        | trapped => exact complete.elim
        | unfinished => exact complete.elim
        | refused =>
          unfold IR.Executable.call at hcall
          split at hcall <;> cases hcall
    next hcount =>
      have hserve : Request.serve h (.invoke k receiver args fuel memory) =
          (.called (.refused
            ⟨k.executable.func.name, k.executable.func.params, args.length⟩), h) := by
        unfold Request.serve IR.Executable.invoke
        dsimp only
        rw [if_neg hcount]
      rw [hserve]
      exact ⟨rfl, rfl⟩

/-- Whatever methods are called, in whatever order and whatever waits at first, an exception neither
stays where it should go nor goes where it should stay: a call that returns leaves the one that its exit
threw and none after a leave, a refused call leaves what was there, and taking empties the place. What
a method that calls itself leaves is another matter; it does not disturb the other calls. -/
theorem serveAll_keeps (requests : List Request) (h : Host) :
    ∀ e ∈ h.serveAll requests, e.reply.Complete → ¬ e.request.CallsItself → e.Keeps := by
  intro e he complete foreign
  induction requests generalizing h with
  | nil => exact absurd he List.not_mem_nil
  | cons r rest ih =>
    rcases List.mem_cons.mp he with rfl | he
    · exact r.keeps_serve h complete foreign
    · exact ih _ he

/-- Throws its argument where that is true, and returns `undef` otherwise:
`getlocal 0; branchif L; putobject undef; leave; L: getlocal 0; throw 0`. -/
def raising : Method where
  name := "raising"
  code := [12, 0, 26, 3, 4, 0x34, 23, 12, 0, 24, 0]
  stackMax := 1
  params := 1
  locals := 1
  instrs := [⟨0, .getLocal, [.literal 0]⟩, ⟨2, .branchIf, [.offset 3]⟩,
    ⟨4, .putObject, [.value .undef]⟩, ⟨6, .leave, []⟩, ⟨7, .getLocal, [.literal 0]⟩,
    ⟨9, .throw, [.literal 0]⟩]
  verified := by cbv

/-- A refused call keeps the exception, and a leave with `undef` drops it. -/
theorem raising_keeps : ∃ k : Callable, k.method = raising ∧
    let throws := Request.invoke k .nil [.fixnum 9] 3
    let exchanges := ({} : Host).serveAll
      [throws, .invoke k .nil [] 3, .take, throws, .invoke k .nil [.nil] 3, .take]
    exchanges.map Exchange.reply =
      [.called (.value .undef), .called (.refused ⟨"raising", 1, 0⟩), .taken (some (.fixnum 9)),
        .called (.value .undef), .called (.value .undef), .taken none] ∧
      ∀ e ∈ exchanges, e.reply.Complete ∧ ¬ e.request.CallsItself ∧ e.Keeps := by
  obtain ⟨j, hj, hname, hthrows, hrefuses, hagain, hleaves⟩ : ∃ j,
      Compiler.journal ⟨raising, .standard, true⟩ .standard = .ok j ∧ j.func.name = "raising" ∧
        let x : IR.Executable := ⟨j.func, .standard⟩
        let once : Host := ⟨some (.fixnum 9), [(0, .fixnum 9)]⟩
        let twice : Host := ⟨some (.fixnum 9), [(0, .fixnum 9), (0, .fixnum 9)]⟩
        x.invoke .nil [.fixnum 9] {} 3 = (.value .undef, once) ∧
          x.invoke .nil [] once 3 = (.refused ⟨"raising", 1, 0⟩, once) ∧
          x.invoke .nil [.fixnum 9] once.clear 3 = (.value .undef, twice) ∧
          x.invoke .nil [.nil] twice 3 = (.value .undef, twice.clear) :=
    Compiler.journal_of_advanceBy 2 (by cbv)
  have hlink : j.compiled.func.link .standard = .ok ⟨j.compiled.func, .standard⟩ := by
    rcases (Journal.final_of_journal rfl hj).wellFormed.link_cases with
      hlink | ⟨-, entry, hentry, -⟩
    · exact hlink
    · rw [hname] at hentry
      cases hentry
  let k : Callable := ⟨{}, raising, ⟨j.func, .standard⟩, rfl,
    Engine.compile_eq_ok_iff.mpr ⟨j.compiled, Compiler.compile_of_journal hj, hlink⟩⟩
  have foreign : ¬ k.executable.func.CallsItself := by
    intro own
    rcases k.name_of_callsItself own with name | name
    · exact absurd (hname.symm.trans name) (by decide)
    · exact absurd (hname.symm.trans name) (by decide +kernel)
  refine ⟨k, rfl, ?_⟩
  intro throws exchanges
  have hreplies : exchanges.map Exchange.reply =
      [.called (.value .undef), .called (.refused ⟨"raising", 1, 0⟩), .taken (some (.fixnum 9)),
        .called (.value .undef), .called (.value .undef), .taken none] := by
    simp only [exchanges, throws, k, Host.serveAll, Request.serve, hthrows, hrefuses, Host.take,
      hagain, hleaves, List.map_cons, List.map_nil]
    rfl
  refine ⟨hreplies, fun e he => ?_⟩
  have complete : e.reply.Complete := by
    have hreply : e.reply ∈ exchanges.map Exchange.reply := List.mem_map_of_mem he
    rw [hreplies] at hreply
    revert hreply
    generalize e.reply = reply
    revert reply
    simp [Reply.Complete]
  have outside : ¬ e.request.CallsItself := by
    simp only [exchanges, throws, Host.serveAll, List.mem_cons, List.not_mem_nil, or_false] at he
    rcases he with rfl | rfl | rfl | rfl | rfl | rfl
    · exact foreign
    · exact foreign
    · exact id
    · exact foreign
    · exact foreign
    · exact id
  exact ⟨complete, outside, serveAll_keeps _ _ e he complete outside⟩

/-- Has the name of the function that throws:
`putself; branchnil L; putobject 42; throw 8; L: putobject 1; leave`. -/
def namesake : Method where
  name := "basalt_throw"
  code := [3, 28, 4, 4, 85, 24, 8, 4, 3, 23]
  stackMax := 1
  params := 0
  locals := 0
  instrs := [⟨0, .putSelf, []⟩, ⟨1, .branchNil, [.offset 4]⟩, ⟨3, .putObject, [.value (.fixnum 42)]⟩,
    ⟨5, .throw, [.literal 8]⟩, ⟨7, .putObject, [.value (.fixnum 1)]⟩, ⟨9, .leave, []⟩]
  verified := by cbv

/-- The throw is a call of the method itself: its state, 8, is `nil` as a receiver, with which the method
returns 1. The call gives that back as if it had left with it, and no exception waits. -/
theorem namesake_loses_exception : ∃ k : Callable, k.method = namesake ∧
    let request := Request.invoke k Value.true [] 6
    let exchange : Exchange := ⟨request, {}, .called (.value (.fixnum 1)), {}⟩
    ({} : Host).serveAll [request] = [exchange] ∧ exchange.reply.Complete ∧
      k.Exits Value.true [] {} .throw (.fixnum 42) ∧ ¬ exchange.Keeps := by
  obtain ⟨j, hj, hname, hlost, hthrown⟩ : ∃ j,
      Compiler.journal ⟨namesake, .standard, true⟩ .standard = .ok j ∧
        j.func.name = "basalt_throw" ∧
        (⟨j.func, .standard⟩ : IR.Executable).invoke Value.true [] {} 6 =
          (.value (.fixnum 1), {}) ∧
        j.func.run ExternTable.standard.call ⟨Value.true.bits, []⟩ {} 3 =
          some (.returned Value.undef.bits, ({} : Host).throw 8 (.fixnum 42)) :=
    Compiler.journal_of_advanceBy 3 (by cbv)
  have final := Journal.final_of_journal rfl hj
  have hlink : j.compiled.func.link .standard = .ok ⟨j.compiled.func, .standard⟩ := by
    rcases final.wellFormed.link_cases with hlink | ⟨-, entry, hentry, harity⟩
    · exact hlink
    · rw [hname] at hentry
      cases hentry
      exact absurd rfl harity
  let k : Callable := ⟨{}, namesake, ⟨j.func, .standard⟩, rfl,
    Engine.compile_eq_ok_iff.mpr ⟨j.compiled, Compiler.compile_of_journal hj, hlink⟩⟩
  have throws : k.Exits Value.true [] {} .throw (.fixnum 42) := by
    rcases final.exits_of_run hthrown with ⟨v, state, hthrow, -, hhost⟩ | ⟨-, hhost⟩
    · cases hhost
      exact ⟨j, hj, hthrow⟩
    · cases hhost
  refine ⟨k, rfl, ?_, trivial, throws, fun keeps => ?_⟩
  · simp only [k, Host.serveAll, Request.serve, hlost]
  · unfold Exchange.Keeps at keeps
    dsimp only at keeps
    split at keeps
    · obtain ⟨w, hreply, returned⟩ := keeps
      cases hreply
      exact absurd (returned.of_throw _ throws) (by decide)
    · cases keeps.1

end StackFlow
