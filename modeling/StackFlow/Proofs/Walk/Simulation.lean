import Mathlib
import StackFlow.Proofs.Lowering.Execution
import StackFlow.Proofs.Walk.Agrees
import StackFlow.Proofs.Walk.Remains

/-!
The function of an agreeing compilation and the code that it comes from, executed side by side: for
each block of the function the code goes through the instructions of the block. Main statement: both
end with the same outcome or not at all, and the host sees the same calls
(`run_iff_after_of_agrees`).
-/
namespace StackFlow

open IR (Reg Stmt BlockId Func Terminator Machine Calls Input dests execAll)

variable {σ : Type} {calls : Calls σ} {input : Input}

/-- The instructions that remain of a block execute, and hand control on as its terminator does, where
that reads the registers after the code. -/
theorem Visit.Remains.departs {m : Method} {x : ExternTable} {t : BlockTable}
    {trap : Option BlockId} {v : Visit} {term : Terminator} {p n : Nat} {r : List Reg}
    {code : List Stmt} (h : v.Remains m x t trap term p n r code) (divides : t.Divides m)
    (room : v.opened.max = m.stackMax) {f : Frame σ} {k : Machine σ} (hf : f.Held m.locals r k)
    (hp : f.position = p) (below : ∀ q ∈ r, q.index < n) (fits : r.length ≤ v.opened.max)
    {get : Reg → Word}
    (kept : ∀ q, q ∈ r ∨ q ∈ dests code → get q = (execAll calls input code k).get q) :
    ∃ count, (p ≤ v.block.last → 0 < count) ∧
      Departs m t trap v.edges (execAll calls input code k) (term.next get)
        ((m.advance calls ⟨input.receiver⟩)^[count] (.running f)) := by
  induction h generalizing f k with
  | @straight i n r r' c code mem inside plain lowered rest ih =>
    obtain ⟨f', hstep, hposition, hheld⟩ :=
      lowered.advance calls input mem plain room hf hp below fits
    have hkept : ∀ q, q ∈ r' ∨ q ∈ dests code →
        get q = (execAll calls input code (execAll calls input c k)).get q := by
      intro q hq
      rw [← IR.execAll_append]
      apply kept
      rw [IR.dests_append, List.mem_append]
      rcases hq with hq | hq
      · exact (lowered.mem hq).imp id .inl
      · exact .inr (.inr hq)
    obtain ⟨count, -, hdeparts⟩ :=
      ih hheld hposition (lowered.below below) (lowered.length_le fits) hkept
    refine ⟨count + 1, fun _ => Nat.succ_pos _, ?_⟩
    rw [Function.iterate_succ_apply, hstep, IR.execAll_append]
    exact hdeparts
  | @transfer i control n s code mem inside transfers ending =>
    refine ⟨1, fun _ => Nat.one_pos, ?_⟩
    have hstep : m.advance calls ⟨input.receiver⟩ (.running f) = f.transfer calls i control := by
      show m.step calls ⟨input.receiver⟩ f = _
      rw [Method.step_eq mem hp, transfers]
    rw [Function.iterate_one, hstep]
    exact ending.departs (fun _ _ => divides.lt_length) hf below kept
  | @stop n s code leads ending =>
    obtain ⟨hfall, hend⟩ :=
      ending.departs_fall calls input (fun _ _ => divides.lt_length) hf get
    rcases leads with ⟨hlast, hnone⟩ | ⟨-, hsome⟩
    · refine ⟨1, fun _ => Nat.one_pos, ?_⟩
      have hstep : m.advance calls ⟨input.receiver⟩ (.running f) = .ended .trapped f.host :=
        Method.step_of_length_le (by omega)
      rw [Function.iterate_one, hstep]
      exact hend hnone
    · have hnext : t.following? v.block.start = some f.position := by rw [hp, hsome]
      exact ⟨0, fun hle => absurd hle (by omega), hfall hnext⟩

namespace Journal

/-- Where the function and the code of the method are side by side: at the first instruction of a
block, past the end of the code, or at the end of the call. -/
inductive Lockstep (c : Compiler) (j : Journal) : IR.Next × Machine σ → Status σ → Prop
  | block {v : Visit} {f : Frame σ} {k : Machine σ} (entered : v ∈ j.visits)
      (position : f.position = v.start) (held : f.Held c.method.locals v.opened.regs k) :
      Lockstep c j (.goto v.handle, k) (.running f)
  | past {id : BlockId} {f : Frame σ} {k : Machine σ} (trap : j.walk.trap = some id)
      (position : c.method.length ≤ f.position) (host : f.host = k.host) :
      Lockstep c j (.goto id, k) (.running f)
  | ended {o : IR.Outcome} {k : Machine σ} : Lockstep c j (.stop o, k) (.ended o k.host)

theorem Lockstep.host? {c : Compiler} {j : Journal} {p : IR.Next × Machine σ} {s : Status σ}
    (h : Lockstep c j p s) : s.host? = some p.2.host := by
  cases h with
  | block _ _ held => exact congrArg some held.host
  | past _ _ host => exact congrArg some host
  | ended => rfl

namespace Final

variable {c : Compiler} {x : ExternTable} {j : Journal}

/-- A block of the function takes the code to the next block. -/
theorem lockstep_block (h : j.Final c x) (agrees : j.Agrees) {v : Visit} (hv : v ∈ j.visits)
    {f : Frame σ} (hp : f.position = v.start) {k : Machine σ}
    (hf : f.Held c.method.locals v.opened.regs k) :
    ∃ n, 0 < n ∧ Lockstep c j (j.func.step calls input v.handle k)
      ((c.method.advance calls ⟨input.receiver⟩)^[n] (.running f)) := by
  obtain ⟨code, hcode, hremains⟩ := h.remains hv
  obtain ⟨hmax, hdepth⟩ := h.depth_le v hv
  have hexec : execAll calls input (j.func.code v.handle) k = execAll calls input code k := by
    rw [hcode, IR.execAll_append, IR.execAll_phis (v.opened.phis_isPhi _)]
  rw [Func.step_eq, hexec]
  dsimp only
  have hkept : ∀ q, q ∈ v.opened.regs ∨ q ∈ dests code →
      ((execAll calls input code k).copy (j.func.copies v.handle)).get q =
        (execAll calls input code k).get q := by
    intro q hq
    apply h.kept agrees hv
    rw [hcode, IR.dests_append]
    exact hq.imp id (List.mem_append_right _)
  obtain ⟨n, hpos, hdeparts⟩ := hremains.departs h.divides hmax hf hp
    (h.reached.ranged.below v hv) (Nat.le_trans hdepth (Nat.le_of_eq hmax.symm)) hkept
  refine ⟨n, hpos (h.contiguous_body hv).1, ?_⟩
  obtain ⟨hlocals, hhost⟩ := (execAll calls input code k).copy_frame (j.func.copies v.handle)
  generalize (c.method.advance calls ⟨input.receiver⟩)^[n] (.running f) = s at hdeparts
  generalize (j.func.exit v.handle).next _ = next at hdeparts
  cases hdeparts with
  | @goto e target f' mem found position held =>
    rcases h.exists_visit hv mem found with ⟨u, hu, hs, rfl⟩ | ⟨hle, htrap⟩
    · refine .block hu (position.trans hs.symm) ⟨?_, held.count, ?_, held.host.trans hhost.symm⟩
      · have hbrings := congrArg (List.map Value.mk)
          (h.brings agrees hv mem hu hs (execAll calls input code k))
        rw [List.map_map, List.map_map] at hbrings
        rw [held.stack]
        exact hbrings.symm
      · rw [hlocals]
        exact held.locals
    · exact .past htrap (Nat.le_trans hle (Nat.le_of_eq position.symm)) (held.host.trans hhost.symm)
  | stop =>
    rw [← hhost]
    exact .ended

/-- A step of the function takes the code one instruction ahead or more. -/
theorem lockstep_advance (h : j.Final c x) (agrees : j.Agrees) {p : IR.Next × Machine σ}
    {s : Status σ} (hs : Lockstep c j p s) :
    ∃ n, 0 < n ∧ Lockstep c j (j.func.advance calls input p)
      ((c.method.advance calls ⟨input.receiver⟩)^[n] s) := by
  cases hs with
  | block entered position held => exact h.lockstep_block agrees entered position held
  | @past id f k trap position host =>
    obtain ⟨hcode, hexit, hcopies⟩ := h.code_trap trap
    have hfunc : j.func.advance calls input (.goto id, k) = (.stop .trapped, k) := by
      show j.func.step calls input id k = _
      rw [Func.step_eq, hcode, hexit, hcopies]
      rfl
    have hcall : c.method.advance calls ⟨input.receiver⟩ (.running f) = .ended .trapped f.host :=
      Method.step_of_length_le position
    refine ⟨1, Nat.one_pos, ?_⟩
    rw [hfunc, Function.iterate_one, hcall, host]
    exact .ended
  | ended => exact ⟨1, Nat.one_pos, .ended⟩

variable {receiver : Value} {args : List Value}

/-- The first block of the function sets up the frame of the call. -/
theorem lockstep_start (h : j.Final c x) (hargs : args.length = c.method.params) (host : σ) :
    Lockstep c j (j.func.after calls ⟨receiver.bits, args.map Value.bits⟩ host 1)
      (.running (c.method.frame args host)) := by
  obtain ⟨target, htarget, hjump⟩ := h.reached.coded.start
  obtain ⟨v, hv, begins⟩ := h.exists_first
  have hhandle := h.reached.linked.handle?_start hv
  rw [begins.start, htarget] at hhandle
  cases hhandle
  have hfunc : j.func.after calls ⟨receiver.bits, args.map Value.bits⟩ host 1 = (.goto v.handle,
      execAll calls ⟨receiver.bits, args.map Value.bits⟩ (Lowering.localsCode c.method)
        { host }) := by
    show j.func.step calls _ Func.entry _ = _
    rw [Func.step_eq, hjump, h.reached.coded.entry, h.copies_of_ne h.handle_ne_entry]
    rfl
  rw [hfunc]
  refine .block hv begins.start.symm ?_
  rw [begins.opened]
  exact Lowering.held_localsCode hargs receiver.bits host

/-- However many blocks the function executes, the code gets to the same place. -/
theorem lockstep_after (calls : Calls σ) (receiver : Value) (h : j.Final c x) (agrees : j.Agrees)
    (hargs : args.length = c.method.params) (host : σ) (fuel : Nat) :
    ∃ n, fuel ≤ n ∧
      Lockstep c j (j.func.after calls ⟨receiver.bits, args.map Value.bits⟩ host (fuel + 1))
        (c.method.after calls receiver args host n) := by
  induction fuel with
  | zero => exact ⟨0, Nat.le_refl _, h.lockstep_start hargs host⟩
  | succ fuel ih =>
    obtain ⟨n, hle, hlock⟩ := ih
    obtain ⟨d, hpos, hnext⟩ := h.lockstep_advance agrees hlock
    refine ⟨n + d, by omega, ?_⟩
    rw [Func.after_succ, Method.after_add]
    exact hnext

/-- The code finds everywhere what it needs. -/
theorem after_ne_stuck (h : j.Final c x) (agrees : j.Agrees)
    (hargs : args.length = c.method.params) (host : σ) (n : Nat) :
    c.method.after calls receiver args host n ≠ .stuck := by
  intro hstuck
  obtain ⟨n', hle, hlock⟩ := h.lockstep_after calls receiver agrees hargs host n
  rw [Method.after_of_le hle hstuck nofun] at hlock
  cases hlock.host?

/-- The function ends exactly where the code does. -/
theorem run_iff (h : j.Final c x) (agrees : j.Agrees) (hargs : args.length = c.method.params)
    (host : σ) (o : IR.Outcome) (host' : σ) :
    (∃ fuel, j.func.run calls ⟨receiver.bits, args.map Value.bits⟩ host fuel = some (o, host')) ↔
      ∃ n, c.method.after calls receiver args host n = .ended o host' := by
  constructor
  · rintro ⟨fuel, hrun⟩
    obtain ⟨hend, hhost⟩ := (Func.run_eq_some_iff _).mp hrun
    cases fuel with
    | zero => cases hend
    | succ fuel =>
      obtain ⟨n, -, hlock⟩ := h.lockstep_after calls receiver agrees hargs host fuel
      generalize j.func.after calls _ host (fuel + 1) = p at hend hhost hlock
      generalize hs : c.method.after calls receiver args host n = s at hlock
      refine ⟨n, ?_⟩
      cases hlock with
      | block => cases hend
      | past => cases hend
      | @ended _ k' =>
        cases hend
        have hout : k'.host = host' := hhost
        rw [← hout]
        exact hs
  · rintro ⟨n, hn⟩
    obtain ⟨n', hle, hlock⟩ := h.lockstep_after calls receiver agrees hargs host n
    rw [Method.after_of_le hle hn nofun] at hlock
    refine ⟨n + 1, (Func.run_eq_some_iff _).mpr ?_⟩
    generalize j.func.after calls _ host (n + 1) = p at hlock ⊢
    cases hlock
    exact ⟨rfl, rfl⟩

end Final

end Journal

/-- An accepted method whose edges agree does as register code what its code does on an operand
stack, whatever the functions of the host do with the host's state: both end with one outcome and
leave the host in one state, or neither ends. The code is never stuck, and however far the function
has come, the code comes to the same state of the host. As a state may record the calls, these are
the same too. -/
theorem run_iff_after_of_agrees (c : Compiler) (x : ExternTable) (k : Compiled) (j : Journal)
    (standard : c.lowering = .standard) (accepted : (c.compile x).result = .ok k)
    (noted : c.journal x = .ok j) (agrees : j.Agrees) {σ : Type} (calls : Calls σ)
    (receiver : Value) (args : List Value) (count : args.length = c.method.params) (host : σ) :
    let input : Input := ⟨receiver.bits, args.map Value.bits⟩
    let call := c.method.after calls receiver args host
    (∀ o host', (∃ fuel, k.func.run calls input host fuel = some (o, host')) ↔
        ∃ n, call n = .ended o host') ∧
      (∀ n, call n ≠ .stuck) ∧
      ∀ fuel, ∃ n, fuel ≤ n ∧
        (call n).host? = some (k.func.after calls input host (fuel + 1)).2.host := by
  obtain ⟨j', hj, rfl⟩ := Compiler.journal_of_compile accepted
  obtain rfl : j = j' := Except.ok.inj (noted.symm.trans hj)
  have h := Journal.final_of_journal standard hj
  refine ⟨fun o host' => h.run_iff agrees count host o host',
    fun n => h.after_ne_stuck agrees count host n, ?_⟩
  intro fuel
  obtain ⟨n, hle, hlock⟩ := h.lockstep_after calls receiver agrees count host fuel
  exact ⟨n, hle, hlock.host?⟩

/-- The receiver stays on the stack as long as the host says so:
`putself; L: putself; putself; opt_plus; branchif L; leave`. -/
def again : Compiler where
  method :=
    { name := "again"
      code := [3, 3, 3, 15, 26, 18446744073709551611, 23]
      stackMax := 3
      params := 0
      locals := 0
      instrs := [⟨0, .putSelf, []⟩, ⟨1, .putSelf, []⟩, ⟨2, .putSelf, []⟩, ⟨3, .optPlus, []⟩,
        ⟨4, .branchIf, [.offset 18446744073709551611]⟩, ⟨6, .leave, []⟩]
      verified := by cbv }
  lowering := .standard

/-- Where the host counts its calls and the third send gives `false`, the function returns the receiver
after three sends, as the code does. -/
theorem again_returns : ∃ k, (again.compile .standard).result = .ok k ∧ ∃ fuel,
    k.func.run (fun _ _ n => (if n < 2 then Value.true.bits else Value.false.bits, n + 1))
      ⟨(Value.fixnum 7).bits, []⟩ 0 fuel = some (.returned (Value.fixnum 7).bits, 3) := by
  obtain ⟨j, hj, agrees⟩ : ∃ j, again.journal .standard = .ok j ∧ j.Agrees :=
    Compiler.journal_of_advanceBy 4 (by rfl)
  have accepted := Compiler.compile_of_journal hj
  have ended : again.method.after
      (fun _ _ n => (if n < 2 then Value.true.bits else Value.false.bits, n + 1))
      (.fixnum 7) [] 0 14 = .ended (.returned (Value.fixnum 7).bits) 3 := by
    rfl
  obtain ⟨hiff, -⟩ := run_iff_after_of_agrees again .standard j.compiled j rfl accepted hj agrees
    (fun _ _ n => (if n < 2 then Value.true.bits else Value.false.bits, n + 1)) (.fixnum 7) [] rfl 0
  exact ⟨_, accepted, (hiff _ _).mpr ⟨14, ended⟩⟩

end StackFlow
