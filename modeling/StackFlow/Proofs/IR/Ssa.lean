import Mathlib.Data.List.Nodup
import Mathlib.Data.List.TakeWhile
import StackFlow.Proofs.IR.Linked
import StackFlow.Proofs.IR.Paths

/-!
Code in single assignment form, where the phis of a block take their values together on the edge that
control goes along. Copies at the end of a block stand for the phis that follow whichever edge is
taken, so a copy for one successor can overwrite what another one still needs. Main statement: where
no copy does, the function executes as its single assignment form says (`run_eq_ssaRun`).
-/
namespace StackFlow.IR

variable {σ : Type} {calls : Calls σ} {input : Input}

/-- Where a phi takes its values from. -/
def Stmt.sources : Stmt → List (BlockId × Reg)
  | phi _ sources => sources
  | _ => []

/-- Registers that the code reads before it defines them. A phi reads nothing where it stands. -/
def exposed : List Stmt → List Reg
  | [] => []
  | s :: code => (if s.isPhi then [] else s.uses) ++ (exposed code).filter (s.dest? ≠ some ·)

namespace Func

/-! ### Single assignment -/

/-- The values that the phis of a block take on the edge from `pred`. -/
def edgeCopies (f : Func) (pred b : BlockId) : List (Reg × Reg) :=
  (f.code b).flatMap (Stmt.copies pred)

/-- Executes one block, and then the phis of the next one. -/
def ssaStep (f : Func) (calls : Calls σ) (input : Input) (b : BlockId) (m : Machine σ) :
    Next × Machine σ :=
  let done := execAll calls input (f.code b) m
  match (f.exit b).next done.get with
  | .goto c => (.goto c, done.copy (f.edgeCopies b c))
  | .stop outcome => (.stop outcome, done)

def ssaRunFrom (f : Func) (calls : Calls σ) (input : Input) :
    Nat → BlockId → Machine σ → Option (Outcome × σ)
  | 0, _, _ => none
  | fuel + 1, b, m =>
    match f.ssaStep calls input b m with
    | (.goto b, m) => f.ssaRunFrom calls input fuel b m
    | (.stop outcome, m) => some (outcome, m.host)

/-- Executes up to `fuel` blocks, the phis of a block on the edge into it. -/
def ssaRun (f : Func) (calls : Calls σ) (input : Input) (host : σ) (fuel : Nat) :
    Option (Outcome × σ) :=
  f.ssaRunFrom calls input fuel entry { host }

/-- Registers that the block reads before it defines them, those that it brings to phis included. -/
def needs (f : Func) (b : BlockId) : List Reg :=
  exposed (f.code b) ++
    ((f.copies b).map Prod.snd ++ (f.exit b).uses).filter (· ∉ dests (f.code b))

/-- Strict single assignment form: whatever path leads to a block, it goes through the definition of
all that the block needs. -/
structure StrictSsa (f : Func) : Prop where
  single : (dests f.stmts).Nodup
  dominated : ∀ b before, f.Path (b :: before) → ∀ r ∈ f.needs b,
    ∃ c ∈ before, r ∈ dests (f.code c)
  head : ∀ b, ∃ phis rest, f.code b = phis ++ rest ∧ (∀ s ∈ phis, s.isPhi = true) ∧
    ∀ s ∈ rest, s.isPhi = false
  sources : ∀ b d sources, .phi d sources ∈ f.code b →
    (sources.map Prod.fst).Nodup ∧ ∀ p, p ∈ sources.map Prod.fst ↔ b ∈ f.successors p

/-! ### Live registers -/

/-- Control can go from the start of the block, behind its phis, to where the register is read before
it is defined. -/
inductive LiveIn (f : Func) : BlockId → Reg → Prop
  | here {b : BlockId} {r : Reg} (needed : r ∈ f.needs b) : LiveIn f b r
  | later {b c : BlockId} {r : Reg} (leads : c ∈ f.successors b) (kept : r ∉ dests (f.code b))
      (live : LiveIn f c r) : LiveIn f b r

/-- No copy at the end of a block overwrites what is still read: by the terminator, or along another
edge. -/
structure KeepsLive (f : Func) : Prop where
  exit : ∀ p d r, (d, r) ∈ f.copies p → d ∉ (f.exit p).uses
  entry : ∀ p d r, (d, r) ∈ f.copies p → ∀ c ∈ f.successors p, ¬ f.LiveIn c d

end Func

/-- Executes linked code, the phis of a block on the edge into it. So are those of the function where
it calls itself. -/
def Executable.ssaRunFrom (x : Executable) (memory : Memory) :
    Nat → Activation → BlockId → Machine Host → Option (Outcome × Host)
  | 0, _, _, _ => none
  | fuel + 1, a, b, m =>
    let again receiver place host :=
      x.ssaRunFrom memory fuel (.ofPlace memory receiver place) Func.entry { host }
    match (x.func.code b).foldlM (x.exec a again) m with
    | .error ended => ended
    | .ok m =>
      match (x.func.exit b).next m.get with
      | .goto c => x.ssaRunFrom memory fuel a c (m.copy (x.func.edgeCopies b c))
      | .stop outcome => some (outcome, m.host)

def Executable.ssaRun (x : Executable) (input : Input) (host : Host) (fuel : Nat)
    (memory : Memory := fun _ => none) : Option (Outcome × Host) :=
  x.ssaRunFrom memory fuel (.ofInput input) Func.entry { host }

theorem Stmt.mem_copies {s : Stmt} {p : BlockId} {d r : Reg} :
    (d, r) ∈ s.copies p ↔ ∃ sources, s = .phi d sources ∧ (p, r) ∈ sources := by
  cases s with
  | phi e sources =>
    simp only [copies, List.mem_map, List.mem_filter, decide_eq_true_eq, Prod.mk.injEq, Prod.exists,
      phi.injEq]
    constructor
    · rintro ⟨b, q, ⟨hm, rfl⟩, rfl, rfl⟩
      exact ⟨sources, ⟨rfl, rfl⟩, hm⟩
    · rintro ⟨_, ⟨rfl, rfl⟩, hm⟩
      exact ⟨p, r, ⟨hm, rfl⟩, rfl, rfl⟩
  | _ => simp [copies]

namespace Terminator

variable {t : Terminator} {get get' : Reg → Word}

/-- Where control goes depends on what the terminator reads only. -/
theorem next_congr (same : ∀ r ∈ t.uses, get r = get' r) : t.next get = t.next get' := by
  cases t <;> simp_all [next, uses]

theorem mem_successors_of_next {b : BlockId} (h : t.next get = .goto b) : b ∈ t.successors := by
  cases t with
  | jump target =>
    cases h
    exact List.mem_singleton_self _
  | branch c t e =>
    cases h
    show (if get c ≠ 0 then t else e) ∈ [t, e]
    split <;> simp
  | switch v cases other =>
    cases h
    show (cases.lookup (get v)).getD other ∈ other :: cases.map Prod.snd
    cases hl : cases.lookup (get v) with
    | none => exact List.mem_cons_self
    | some target =>
      obtain ⟨l₁, l₂, rfl, -⟩ := List.lookup_eq_some_iff.mp hl
      simp
  | ret v => cases h
  | unreachable => cases h
  | missing => cases h

end Terminator

/-- The machines differ in no register that is asked for, and in nothing else. -/
structure Machine.Agree (asked : Reg → Prop) (m m' : Machine σ) : Prop where
  regs : ∀ r, asked r → m.get r = m'.get r
  locals : m.locals = m'.locals
  host : m.host = m'.host

/-- Two executions go on with machines that agree, or end in the same way. -/
inductive Machine.Alike {ε : Type} (asked : Reg → Prop) :
    Except ε (Machine σ) → Except ε (Machine σ) → Prop
  | on {m m' : Machine σ} (agree : m.Agree asked m') : Alike asked (.ok m) (.ok m')
  | ended (e : ε) : Alike asked (.error e) (.error e)

theorem Machine.Alike.mono {ε : Type} {asked asked' : Reg → Prop} {r r' : Except ε (Machine σ)}
    (h : Alike asked r r') (sub : ∀ q, asked' q → asked q) : Alike asked' r r' := by
  cases h with
  | on agree => exact .on ⟨fun q hq => agree.regs q (sub q hq), agree.locals, agree.host⟩
  | ended e => exact .ended e

theorem Machine.Alike.eq_cases {ε : Type} {asked : Reg → Prop} {r r' : Except ε (Machine σ)}
    (h : Alike asked r r') : (∃ e, r = .error e ∧ r' = .error e) ∨
      ∃ m m', r = .ok m ∧ r' = .ok m' ∧ m.Agree asked m' := by
  cases h with
  | on agree => exact .inr ⟨_, _, rfl, rfl, agree⟩
  | ended e => exact .inl ⟨e, rfl, rfl⟩

namespace Machine.Agree

variable {asked : Reg → Prop} {m m' : Machine σ}

theorem set (h : Agree asked m m') (d : Reg) {w w' : Word} (hw : w = w') :
    Agree (fun r => asked r ∨ some d = some r) (m.set d w) (m'.set d w') where
  regs r hr := by
    rw [get_set, get_set, hw]
    split
    · rfl
    next hne => exact h.regs r (hr.resolve_right fun he => hne (Option.some.inj he).symm)
  locals := h.locals
  host := h.host

/-- A statement does the same to machines that agree in what it reads. -/
theorem exec (calls : Calls σ) (input : Input) {s : Stmt} (h : Agree asked m m')
    (plain : s.isPhi = false) (uses : ∀ r ∈ s.uses, asked r) :
    Agree (fun r => asked r ∨ s.dest? = some r) (s.exec calls input m) (s.exec calls input m') := by
  have same {r : Reg} (hr : r ∈ s.uses) : m.get r = m'.get r := h.regs r (uses r hr)
  have both {l r : Reg} (hl : l ∈ s.uses) (hr : r ∈ s.uses) (op : Word → Word → Word) :
      op (m.get l) (m.get r) = op (m'.get l) (m'.get r) := by rw [same hl, same hr]
  cases s with
  | const d w => exact h.set d rfl
  | receiver d => exact h.set d rfl
  | arg d i => exact h.set d rfl
  | loadLocal d i => exact h.set d (by rw [h.locals])
  | storeLocal i v =>
    refine ⟨fun r hr => h.regs r (hr.resolve_right nofun), ?_, h.host⟩
    show m.locals.set i (m.get v) = m'.locals.set i (m'.get v)
    rw [h.locals, same List.mem_cons_self]
  | and d l r => exact h.set d (both (by simp [Stmt.uses]) (by simp [Stmt.uses]) (· &&& ·))
  | eq d l r =>
    exact h.set d (both (by simp [Stmt.uses]) (by simp [Stmt.uses]) fun a b => ofBool (a == b))
  | ne d l r =>
    exact h.set d (both (by simp [Stmt.uses]) (by simp [Stmt.uses]) fun a b => ofBool (a != b))
  | call d callee args =>
    have hmap : args.map m.get = args.map m'.get := List.map_congr_left fun r hr => same hr
    have hargs : calls callee (args.map m.get) m.host = calls callee (args.map m'.get) m'.host := by
      rw [hmap, h.host]
    have hcalled : Agree asked { m with host := (calls callee (args.map m.get) m.host).2 }
        { m' with host := (calls callee (args.map m'.get) m'.host).2 } :=
      ⟨h.regs, h.locals, congrArg Prod.snd hargs⟩
    exact hcalled.set d (congrArg Prod.fst hargs)
  | phi => cases plain

/-- Code keeps machines in agreement, if its statements do, or ends in the same way for both of them. A
phi has its value already. -/
theorem foldlM {ε : Type} {g : Machine σ → Stmt → Except ε (Machine σ)}
    (plain : ∀ {asked : Reg → Prop} {m m' : Machine σ} {s : Stmt}, Agree asked m m' →
      s.isPhi = false → (∀ r ∈ s.uses, asked r) →
        Alike (fun r => asked r ∨ s.dest? = some r) (g m s) (g m' s))
    (phi : ∀ m d sources, g m (.phi d sources) = .ok m) {code : List Stmt} (h : Agree asked m m')
    (exposes : ∀ r ∈ exposed code, asked r) (phis : ∀ d sources, .phi d sources ∈ code → asked d) :
    Alike (fun r => asked r ∨ r ∈ dests code) (code.foldlM g m) (code.foldlM g m') := by
  induction code generalizing asked m m' with
  | nil => exact .on ⟨fun r hr => h.regs r (hr.resolve_right (by simp)), h.locals, h.host⟩
  | cons s code ih =>
    have later {r : Reg} (hr : r ∈ exposed code) : asked r ∨ s.dest? = some r := by
      by_cases hd : s.dest? = some r
      · exact .inr hd
      · exact .inl (exposes r (List.mem_append_right _ (by simp [hr, hd])))
    have first : Alike (fun r => asked r ∨ s.dest? = some r) (g m s) (g m' s) := by
      by_cases hs : s.isPhi = false
      · exact plain h hs fun r hr => exposes r (List.mem_append_left _ (by simp [hs, hr]))
      · cases s <;> try exact absurd rfl hs
        next d sources =>
          rw [phi, phi]
          refine .on ⟨fun r hr => h.regs r ?_, h.locals, h.host⟩
          rcases hr with hr | hr
          · exact hr
          · cases hr
            exact phis _ _ List.mem_cons_self
    rw [List.foldlM_cons, List.foldlM_cons]
    generalize g m s = r, g m' s = r' at first
    cases first with
    | ended e => exact .ended e
    | on agree =>
      have rest := ih agree (fun r hr => later hr)
        fun d sources hd => .inl (phis d sources (List.mem_cons_of_mem s hd))
      refine rest.mono fun r hr => ?_
      rcases hr with hr | hr
      · exact .inl (.inl hr)
      · obtain ⟨t, ht, hd⟩ := List.mem_filterMap.mp hr
        rcases List.mem_cons.mp ht with rfl | ht
        · exact .inl (.inr hd)
        · exact .inr (List.mem_filterMap.mpr ⟨t, ht, hd⟩)

theorem execAll (calls : Calls σ) (input : Input) {code : List Stmt} (h : Agree asked m m')
    (exposes : ∀ r ∈ exposed code, asked r) (phis : ∀ d sources, .phi d sources ∈ code → asked d) :
    Agree (fun r => asked r ∨ r ∈ dests code) (execAll calls input code m)
      (execAll calls input code m') := by
  have pure (k : Machine σ) : code.foldlM (fun m s => .ok (s.exec calls input m)) k =
      (.ok (IR.execAll calls input code k) : Except Empty (Machine σ)) := List.foldlM_pure
  have alike := h.foldlM (g := fun m s => (.ok (s.exec calls input m) : Except Empty (Machine σ)))
    (fun h plain uses => .on (h.exec calls input plain uses)) (fun _ _ _ => rfl) exposes phis
  rw [pure, pure] at alike
  cases alike with
  | on agree => exact agree

/-- The same holds for a statement of linked code. -/
theorem linkedExec (x : Executable) (a : Activation)
    (again : Word → Word → Host → Option (Outcome × Host)) {m m' : Machine Host} {s : Stmt}
    (h : Agree asked m m') (plain : s.isPhi = false) (uses : ∀ r ∈ s.uses, asked r) :
    Alike (fun r => asked r ∨ s.dest? = some r) (x.exec a again m s) (x.exec a again m' s) := by
  have foreign := h.exec x.externs.call ⟨a.receiver, []⟩ plain uses
  cases s with
  | arg d i =>
    dsimp only [Executable.exec]
    cases a.arg? i with
    | none => exact h.host ▸ .ended _
    | some w => exact .on (h.set d rfl)
  | call d callee args =>
    have words : args.map m.get = args.map m'.get :=
      List.map_congr_left fun r hr => h.regs r (uses r hr)
    dsimp only [Executable.exec]
    split
    · rw [words, h.host]
      split
      next w host _ =>
        have back : Agree asked { m with host } { m' with host } := ⟨h.regs, h.locals, rfl⟩
        exact .on (back.set d rfl)
      next => exact .ended _
    · exact .on foreign
  | _ => exact .on foreign

end Machine.Agree

namespace Func

variable {f : Func} {b c : BlockId} {m m' : Machine σ}

/-- Registers that have to agree where a block starts: the live ones and its phis. -/
def Asked (f : Func) (b : BlockId) (r : Reg) : Prop :=
  f.LiveIn b r ∨ ∃ sources, .phi r sources ∈ f.code b

theorem mem_edgeCopies {p : BlockId} {d r : Reg} :
    (d, r) ∈ f.edgeCopies p b ↔ ∃ sources, .phi d sources ∈ f.code b ∧ (p, r) ∈ sources := by
  unfold edgeCopies
  rw [List.mem_flatMap]
  constructor
  · rintro ⟨s, hs, hm⟩
    obtain ⟨sources, rfl, hp⟩ := Stmt.mem_copies.mp hm
    exact ⟨sources, hs, hp⟩
  · rintro ⟨sources, hs, hp⟩
    exact ⟨_, hs, Stmt.mem_copies.mpr ⟨sources, rfl, hp⟩⟩

theorem mem_copies_iff {p : BlockId} {d r : Reg} :
    (d, r) ∈ f.copies p ↔ ∃ b, (d, r) ∈ f.edgeCopies p b := by
  rw [mem_copies]
  simp only [edgeCopies, List.mem_flatMap]

/-- What is read at the end of a block is defined in it or live where it starts. -/
theorem asked_or_mem_dests {r : Reg} (hr : r ∈ (f.copies b).map Prod.snd ++ (f.exit b).uses) :
    f.Asked b r ∨ r ∈ dests (f.code b) := by
  by_cases hdone : r ∈ dests (f.code b)
  · exact .inr hdone
  · exact .inl (.inl (.here (List.mem_append_right _ (List.mem_filter.mpr ⟨hr, by simpa⟩))))

/-- After the code of a block machines that agree go on to the same place. -/
theorem KeepsLive.next_copy (keeps : f.KeepsLive)
    (done : Machine.Agree (fun r => f.Asked b r ∨ r ∈ dests (f.code b)) m m') :
    (f.exit b).next (m.copy (f.copies b)).get = (f.exit b).next m'.get := by
  apply Terminator.next_congr
  intro r hr
  rw [Machine.get_copy_of_ne _ fun q hq => keeps.exit b r q hq hr]
  exact done.regs r (asked_or_mem_dests (List.mem_append_right _ hr))

theorem asked_of_code (f : Func) (b : BlockId) : (∀ r ∈ exposed (f.code b), f.Asked b r) ∧
    ∀ d sources, .phi d sources ∈ f.code b → f.Asked b d :=
  ⟨fun _ hr => .inl (.here (List.mem_append_left _ hr)), fun _ sources hd => .inr ⟨sources, hd⟩⟩

namespace StrictSsa

/-- At the end of a block one value is copied to a phi. -/
theorem source_unique (h : f.StrictSsa) {p : BlockId} {d r r' : Reg} (hr : (d, r) ∈ f.copies p)
    (hr' : (d, r') ∈ f.copies p) : r = r' := by
  obtain ⟨b, hb⟩ := mem_copies_iff.mp hr
  obtain ⟨b', hb'⟩ := mem_copies_iff.mp hr'
  obtain ⟨sources, hs, hp⟩ := mem_edgeCopies.mp hb
  obtain ⟨sources', hs', hp'⟩ := mem_edgeCopies.mp hb'
  cases eq_of_dest h.single (mem_stmts.mpr ⟨b, hs⟩) (mem_stmts.mpr ⟨b', hs'⟩) rfl rfl
  exact (Prod.mk.inj (List.inj_on_of_nodup_map (h.sources b d sources hs).1 hp hp' rfl)).2

/-- Each phi of a block has a source on each edge into it. -/
theorem exists_source (h : f.StrictSsa) {p : BlockId} (leads : c ∈ f.successors p) {d : Reg}
    {sources : List (BlockId × Reg)} (hs : .phi d sources ∈ f.code c) :
    ∃ r, (d, r) ∈ f.edgeCopies p c := by
  obtain ⟨⟨p', r⟩, hm, rfl⟩ := List.mem_map.mp (((h.sources c d sources hs).2 p).mpr leads)
  exact ⟨r, mem_edgeCopies.mpr ⟨sources, hs, hm⟩⟩

/-- The copies at the end of a block and the phis on the edge that is taken keep machines in
agreement. -/
theorem agree_copy (h : f.StrictSsa) (keeps : f.KeepsLive) {p : BlockId} (leads : c ∈ f.successors p)
    (agree : Machine.Agree (fun r => f.Asked p r ∨ r ∈ dests (f.code p)) m m') :
    Machine.Agree (f.Asked c) (m.copy (f.copies p)) (m'.copy (f.edgeCopies p c)) := by
  have copied {d r : Reg} (hm : (d, r) ∈ f.edgeCopies p c) : (d, r) ∈ f.copies p :=
    mem_copies_iff.mpr ⟨c, hm⟩
  refine ⟨fun d hd => ?_, ?_, ?_⟩
  · by_cases hphi : ∃ sources, .phi d sources ∈ f.code c
    · obtain ⟨sources, hs⟩ := hphi
      obtain ⟨r, hr⟩ := h.exists_source leads hs
      rw [m.get_copy_of_mem (copied hr) fun r' hr' => by rw [h.source_unique hr' (copied hr)],
        m'.get_copy_of_mem hr fun r' hr' => by rw [h.source_unique (copied hr') (copied hr)]]
      have read : r ∈ (f.copies p).map Prod.snd := List.mem_map_of_mem (copied hr)
      exact agree.regs r (asked_or_mem_dests (List.mem_append_left _ read))
    · have live : f.LiveIn c d := hd.resolve_right hphi
      rw [m.get_copy_of_ne fun r hr => keeps.entry p d r hr c leads live, m'.get_copy_of_ne]
      · apply agree.regs
        by_cases hdone : d ∈ dests (f.code p)
        · exact .inr hdone
        · exact .inl (.inl (.later leads hdone live))
      · intro r hr
        obtain ⟨sources, hs, -⟩ := mem_edgeCopies.mp hr
        exact hphi ⟨sources, hs⟩
  · rw [(m.copy_frame _).1, (m'.copy_frame _).1, agree.locals]
  · rw [(m.copy_frame _).2, (m'.copy_frame _).2, agree.host]

/-- A block hands control on to the same block, and there the machines agree again, or ends the
execution in the same way. -/
theorem agree_step (calls : Calls σ) (input : Input) (h : f.StrictSsa) (keeps : f.KeepsLive)
    (agree : Machine.Agree (f.Asked b) m m') :
    (∃ c n n', f.step calls input b m = (.goto c, n) ∧ f.ssaStep calls input b m' = (.goto c, n') ∧
      Machine.Agree (f.Asked c) n n') ∨
    ∃ o n n', f.step calls input b m = (.stop o, n) ∧ f.ssaStep calls input b m' = (.stop o, n') ∧
      n.host = n'.host := by
  have done : Machine.Agree (fun r => f.Asked b r ∨ r ∈ dests (f.code b))
      (execAll calls input (f.code b) m) (execAll calls input (f.code b) m') :=
    agree.execAll calls input (asked_of_code f b).1 (asked_of_code f b).2
  rw [step_eq, ssaStep]
  dsimp only
  rw [keeps.next_copy done]
  cases hgoes : (f.exit b).next (execAll calls input (f.code b) m').get with
  | goto c =>
    exact .inl ⟨c, _, _, rfl, rfl,
      h.agree_copy keeps (Terminator.mem_successors_of_next hgoes) done⟩
  | stop o => exact .inr ⟨o, _, _, rfl, rfl, by rw [(Machine.copy_frame _ _).2, done.host]⟩

theorem runFrom_eq (h : f.StrictSsa) (keeps : f.KeepsLive) (fuel : Nat)
    (agree : Machine.Agree (f.Asked b) m m') :
    f.runFrom calls input fuel b m = f.ssaRunFrom calls input fuel b m' := by
  induction fuel generalizing b m m' with
  | zero => rfl
  | succ fuel ih =>
    unfold runFrom ssaRunFrom
    rcases h.agree_step calls input keeps agree with
      ⟨c, n, n', hstep, hssa, hagree⟩ | ⟨o, n, n', hstep, hssa, hhost⟩
    · rw [hstep, hssa]
      exact ih hagree
    · rw [hstep, hssa]
      show some (o, n.host) = some (o, n'.host)
      rw [hhost]

/-- The function's calls of itself are executed in the same two ways. -/
theorem linked_runFrom_eq {x : Executable} (h : x.func.StrictSsa) (keeps : x.func.KeepsLive)
    (memory : Memory) (fuel : Nat) (a : Activation) {m m' : Machine Host}
    (agree : Machine.Agree (x.func.Asked b) m m') :
    x.runFrom memory fuel a b m = x.ssaRunFrom memory fuel a b m' := by
  induction fuel generalizing a b m m' with
  | zero => rfl
  | succ fuel ih =>
    have again (receiver place : Word) (host : Host) :
        x.runFrom memory fuel (.ofPlace memory receiver place) entry { host } =
          x.ssaRunFrom memory fuel (.ofPlace memory receiver place) entry { host } :=
      ih _ ⟨fun _ _ => rfl, rfl, rfl⟩
    have alike := agree.foldlM
      (fun h plain uses => h.linkedExec x a (fun receiver place host =>
        x.ssaRunFrom memory fuel (.ofPlace memory receiver place) entry { host }) plain uses)
      (fun _ _ _ => rfl) (asked_of_code x.func b).1 (asked_of_code x.func b).2
    unfold Executable.runFrom Executable.ssaRunFrom
    simp only [again]
    rcases alike.eq_cases with ⟨e, he, he'⟩ | ⟨n, n', hn, hn', done⟩
    · rw [← code, he, he']
    · rw [← code, hn, hn']
      dsimp only
      rw [← exit, keeps.next_copy done]
      cases hgoes : (x.func.exit b).next n'.get with
      | goto c => exact ih a (h.agree_copy keeps (Terminator.mem_successors_of_next hgoes) done)
      | stop o =>
        show some (o, (n.copy (x.func.copies b)).host) = some (o, n'.host)
        rw [(Machine.copy_frame _ _).2, done.host]

end StrictSsa

/-! ### Finding out by a look at each block -/

section

variable (f)

/-- Phis take their values from blocks of the function. -/
def Sourced : Prop :=
  ∀ i < f.blocks.length, ∀ s ∈ f.code ⟨i⟩, ∀ p ∈ s.sources, p.1.index < f.blocks.length

theorem needs_of_le (sourced : f.Sourced) {b : BlockId} (outside : f.blocks.length ≤ b.index) :
    f.needs b = [] := by
  have hcopies : f.copies b = [] := by
    rw [List.eq_nil_iff_forall_not_mem]
    rintro ⟨d, r⟩ hm
    obtain ⟨c, hc⟩ := mem_copies_iff.mp hm
    obtain ⟨sources, hs, hp⟩ := mem_edgeCopies.mp hc
    by_cases inside : c.index < f.blocks.length
    · exact absurd (sourced c.index inside _ hs _ hp) (Nat.not_lt.mpr outside)
    · rw [f.code_of_le (Nat.le_of_not_lt inside)] at hs
      cases hs
  unfold needs
  rw [f.code_of_le outside, f.exit_of_le outside, hcopies]
  rfl

/-- What a block needs is in its set, and what the next blocks have there comes from the block or was
in its set, too. -/
structure Stable (sets : BlockId → List Reg) : Prop where
  sourced : f.Sourced
  needs : ∀ i < f.blocks.length, f.needs ⟨i⟩ ⊆ sets ⟨i⟩
  step : ∀ i < f.blocks.length, ∀ c ∈ f.successors ⟨i⟩, sets c ⊆ sets ⟨i⟩ ++ dests (f.code ⟨i⟩)

end

namespace Stable

variable {sets : BlockId → List Reg}

theorem needs_subset (h : f.Stable sets) (b : BlockId) : f.needs b ⊆ sets b := by
  by_cases inside : b.index < f.blocks.length
  · exact h.needs b.index inside
  · rw [f.needs_of_le h.sourced (Nat.le_of_not_lt inside)]
    exact List.nil_subset _

theorem mem_of_successor (h : f.Stable sets) {r : Reg} (leads : c ∈ f.successors b)
    (hr : r ∈ sets c) : r ∈ sets b ∨ r ∈ dests (f.code b) := by
  by_cases inside : b.index < f.blocks.length
  · exact List.mem_append.mp (h.step b.index inside c leads hr)
  · rw [f.successors_of_le (Nat.le_of_not_lt inside)] at leads
    cases leads

/-- Where nothing is in the set of the entry, what is in that of a block is defined on each way to
it. -/
theorem exists_def (h : f.Stable sets) (start : sets entry = []) {before : List BlockId}
    (path : f.Path (b :: before)) : ∀ r ∈ sets b, ∃ c ∈ before, r ∈ dests (f.code c) := by
  induction before generalizing b with
  | nil =>
    cases path
    rw [start]
    nofun
  | cons p before ih =>
    intro r hr
    cases path with
    | step path next =>
      rcases h.mem_of_successor next hr with hr | hr
      · obtain ⟨c, hc, hd⟩ := ih path r hr
        exact ⟨c, List.mem_cons_of_mem p hc, hd⟩
      · exact ⟨p, List.mem_cons_self, hr⟩

theorem mem_of_liveIn (h : f.Stable sets) {r : Reg} (live : f.LiveIn b r) : r ∈ sets b := by
  induction live with
  | here needed => exact h.needs_subset _ needed
  | later leads kept _ ih => exact (h.mem_of_successor leads ih).resolve_right kept

theorem strictSsa (h : f.Stable sets) (start : sets entry = []) (single : (dests f.stmts).Nodup)
    (head : ∀ i < f.blocks.length, ∀ s ∈ (f.code ⟨i⟩).dropWhile Stmt.isPhi, s.isPhi = false)
    (sources : ∀ i < f.blocks.length, ∀ s ∈ (f.code ⟨i⟩).filter Stmt.isPhi,
      (s.sources.map Prod.fst).Nodup ∧
        ∀ k < f.blocks.length, ⟨k⟩ ∈ s.sources.map Prod.fst ↔ ⟨i⟩ ∈ f.successors ⟨k⟩) :
    f.StrictSsa where
  single := single
  dominated b before path r hr := h.exists_def start path r (h.needs_subset b hr)
  head b := by
    refine ⟨(f.code b).takeWhile Stmt.isPhi, (f.code b).dropWhile Stmt.isPhi,
      (List.takeWhile_append_dropWhile).symm, fun s hs => List.mem_takeWhile_imp hs, ?_⟩
    by_cases inside : b.index < f.blocks.length
    · exact head b.index inside
    · rw [f.code_of_le (Nat.le_of_not_lt inside)]
      nofun
  sources b d sources' hs := by
    by_cases inside : b.index < f.blocks.length
    · obtain ⟨hnodup, hiff⟩ := sources b.index inside _ (List.mem_filter.mpr ⟨hs, rfl⟩)
      refine ⟨hnodup, fun p => ?_⟩
      by_cases hp : p.index < f.blocks.length
      · exact hiff p.index hp
      · constructor
        · intro hm
          obtain ⟨q, hq, rfl⟩ := List.mem_map.mp hm
          exact absurd (h.sourced b.index inside _ hs q hq) hp
        · intro hm
          rw [f.successors_of_le (Nat.le_of_not_lt hp)] at hm
          cases hm
    · rw [f.code_of_le (Nat.le_of_not_lt inside)] at hs
      cases hs

theorem keepsLive (h : f.Stable sets)
    (keeps : ∀ i < f.blocks.length, ∀ p ∈ f.copies ⟨i⟩,
      p.1 ∉ (f.exit ⟨i⟩).uses ∧ ∀ c ∈ f.successors ⟨i⟩, p.1 ∉ sets c) : f.KeepsLive where
  exit b d r hr := by
    by_cases inside : b.index < f.blocks.length
    · exact (keeps b.index inside _ hr).1
    · rw [f.exit_of_le (Nat.le_of_not_lt inside)]
      nofun
  entry b d r hr c leads live := by
    by_cases inside : b.index < f.blocks.length
    · exact (keeps b.index inside _ hr).2 c leads (h.mem_of_liveIn live)
    · rw [f.successors_of_le (Nat.le_of_not_lt inside)] at leads
      cases leads

end Stable

end Func

/-- A function in strict single assignment form executes with copies as its form says, provided that
no copy overwrites what is still read: with the same calls to the same end. Linked it does so as well,
with the functions of the host or, where it has a call of its own name, with itself. -/
theorem run_eq_ssaRun (f : Func) (strict : f.StrictSsa) (keeps : f.KeepsLive) :
    (∀ {σ : Type} (calls : Calls σ) (input : Input) (host : σ) (fuel : Nat),
      f.run calls input host fuel = f.ssaRun calls input host fuel) ∧
    ∀ t x, f.link t = .ok x → ∀ input h fuel memory,
      x.run input h fuel memory = x.ssaRun input h fuel memory ∧
        (¬ f.CallsItself → x.run input h fuel memory = f.ssaRun t.call input h fuel) := by
  have runs {σ : Type} (calls : Calls σ) (input : Input) (host : σ) (fuel : Nat) :
      f.run calls input host fuel = f.ssaRun calls input host fuel :=
    strict.runFrom_eq keeps fuel ⟨fun _ _ => rfl, rfl, rfl⟩
  refine ⟨runs, ?_⟩
  intro t x linked input h fuel memory
  obtain rfl := (Func.link_eq_ok_iff.mp linked).2
  refine ⟨?_, fun foreign => ?_⟩
  · exact Func.StrictSsa.linked_runFrom_eq strict keeps memory fuel _ ⟨fun _ _ => rfl, rfl, rfl⟩
  · rw [Executable.run_eq foreign]
    exact runs t.call input h fuel

/-- Two phis exchange their values until the second one is 1. -/
def swapping : Func where
  name := "swapping"
  params := 0
  locals := 0
  blocks :=
    [{ stmts := [.const ⟨0⟩ 1, .const ⟨1⟩ 0], terminator := .jump ⟨1⟩ },
      { stmts := [.phi ⟨2⟩ [(⟨0⟩, ⟨0⟩), (⟨1⟩, ⟨3⟩)], .phi ⟨3⟩ [(⟨0⟩, ⟨1⟩), (⟨1⟩, ⟨2⟩)],
          .and ⟨4⟩ ⟨3⟩ ⟨0⟩, .and ⟨5⟩ ⟨2⟩ ⟨0⟩]
        terminator := .branch ⟨4⟩ ⟨2⟩ ⟨1⟩, preds := [⟨0⟩, ⟨1⟩] },
      { stmts := [], terminator := .ret ⟨5⟩, preds := [⟨1⟩] }]
  nextReg := 6

theorem swapping_stable : swapping.Stable fun b => [[], [⟨0⟩], [⟨5⟩]].getD b.index [] where
  sourced := by unfold Func.Sourced; decide
  needs := by decide
  step := by decide

theorem swapping_exchanges : swapping.StrictSsa ∧ swapping.KeepsLive ∧
    swapping.run (fun _ _ n => (0, n)) ⟨0, []⟩ 0 4 = some (.returned 0, 0) ∧
    swapping.ssaRun (fun _ _ n => (0, n)) ⟨0, []⟩ 0 4 = some (.returned 0, 0) := by
  have strict := swapping_stable.strictSsa rfl (by decide) (by decide) (by decide)
  have keeps := swapping_stable.keepsLive (by decide)
  have hssa : swapping.ssaRun (fun _ _ n => (0, n)) ⟨0, []⟩ 0 4 = some (.returned 0, 0) := by cbv
  exact ⟨strict, keeps, ((run_eq_ssaRun swapping strict keeps).1 _ _ _ _).trans hssa, hssa⟩

/-- The value that comes into the loop is lost: the copy for the next round is made before the branch
that leaves the loop. -/
def losing : Func where
  name := "losing"
  params := 0
  locals := 0
  blocks :=
    [{ stmts := [.const ⟨0⟩ 7], terminator := .jump ⟨1⟩ },
      { stmts := [.phi ⟨1⟩ [(⟨0⟩, ⟨0⟩), (⟨1⟩, ⟨2⟩)], .const ⟨2⟩ 0]
        terminator := .branch ⟨2⟩ ⟨1⟩ ⟨2⟩, preds := [⟨0⟩, ⟨1⟩] },
      { stmts := [], terminator := .ret ⟨1⟩, preds := [⟨1⟩] }]
  nextReg := 3

theorem losing_stable : losing.Stable fun b => [[], [], [⟨1⟩]].getD b.index [] where
  sourced := by unfold Func.Sourced; decide
  needs := by decide
  step := by decide

/-- Linked, it returns 0, the bits of `false`, where its form says 7, those of the integer 3. -/
theorem losing_overwrites : losing.StrictSsa ∧ losing.link {} = .ok ⟨losing, {}⟩ ∧
    (⟨losing, {}⟩ : Executable).run ⟨Value.nil.bits, []⟩ {} 3 =
      some (.returned Value.false.bits, {}) ∧
    losing.ssaRun (ExternTable.call {}) ⟨Value.nil.bits, []⟩ {} 3 =
      some (.returned (Value.fixnum 3).bits, {}) :=
  ⟨losing_stable.strictSsa rfl (by decide) (by decide) (by decide), by cbv, by cbv, by cbv⟩

end StackFlow.IR
