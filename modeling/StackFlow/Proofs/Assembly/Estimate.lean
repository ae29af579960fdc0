import Mathlib
import StackFlow.Proofs.Assembly.Specialised
import StackFlow.Proofs.Walk.Faults

/-!
The estimate of the operand stack. Depths are counted along the text, which control does not always
follow: after a jump or an exit the count goes on from the line above, whatever is brought by the paths
that come from elsewhere. Main statement: the estimate falls short of the depths along the paths by no
more than the count does at positions where control does not come from above (`estimate_suffices`).
-/
namespace StackFlow

open Assembly (ofDirectives)

namespace Method

variable {m : Method}

/-- Every path finds the operands of the instructions that it comes to, brings to them what all other
paths bring, and brings exactly one value to an exit. -/
structure Disciplined (m : Method) : Prop where
  finds : ∀ p i d, m.instrAt? p = some i → m.Reaches p d → i.effect.1 ≤ d
  level : ∀ p i d d', m.instrAt? p = some i → m.Reaches p d → m.Reaches p d' → d' = d
  exits : ∀ p i d kind, m.instrAt? p = some i → m.Reaches p d →
    i.opcode.control = some (.exit kind) → d = 1

/-- A path comes to the position from the instruction that stands before it. -/
def FallsInto (m : Method) (p : Nat) : Prop :=
  ∃ i ∈ m.instrs, ∃ d, m.Reaches i.position d ∧ i.next = p ∧ p ∈ i.successors

section Depths

variable {S : List (Nat × Int)} (start : (0, 0) ∈ S)
  (steps : ∀ s ∈ S, ∀ i ∈ m.instrs, i.position = s.1 → ∀ q ∈ i.successors,
    (q, s.2 - i.effect.1 + i.effect.2) ∈ S)

include start steps

/-- Paths keep to the depths that are noted, where these are closed under the steps of paths. -/
theorem Reaches.mem_of_depths {p : Nat} {d : Int} (path : m.Reaches p d) : (p, d) ∈ S := by
  induction path with
  | start => exact start
  | step _ found after ih =>
    obtain ⟨hi, hp⟩ := instrAt?_eq_some_iff.mp found
    exact steps _ ih _ hi hp _ after

/-- The discipline is kept where one depth is noted for each position and the instruction there can be
executed at it. -/
theorem disciplined_of_depths (once : (S.map Prod.fst).Nodup)
    (finds : ∀ s ∈ S, ∀ i ∈ m.instrs, i.position = s.1 → i.effect.1 ≤ s.2)
    (exits : ∀ kind, ∀ s ∈ S, ∀ i ∈ m.instrs, i.position = s.1 →
      i.opcode.control = some (.exit kind) → s.2 = 1) : m.Disciplined where
  finds p i d found path := by
    obtain ⟨hi, hp⟩ := instrAt?_eq_some_iff.mp found
    exact finds _ (path.mem_of_depths start steps) i hi hp
  level p i d d' _ path path' :=
    congrArg Prod.snd (List.inj_on_of_nodup_map once (path'.mem_of_depths start steps)
      (path.mem_of_depths start steps) rfl)
  exits p i d kind found path leaves := by
    obtain ⟨hi, hp⟩ := instrAt?_eq_some_iff.mp found
    exact exits kind _ (path.mem_of_depths start steps) i hi hp leaves

end Depths

theorem instrs_of_code {m' : Method} (same : m'.code = m.code) : m'.instrs = m.instrs :=
  instrs_of_decodeAll (same ▸ m.decodeAll_code)

/-- Methods of the same code have the same paths. -/
theorem Reaches.of_code {m' : Method} (same : m'.code = m.code) {p : Nat} {d : Int}
    (path : m'.Reaches p d) : m.Reaches p d := by
  induction path with
  | start => exact .start
  | step _ found after ih =>
    rw [instrAt?, instrs_of_code same] at found
    exact ih.step found after

end Method

/-- Where the opcode alone tells the effect, it is the one of the instruction. -/
theorem Instr.effect_of_opcode {i : Instr} {e : Nat × Nat} (h : i.opcode.effect = some e) :
    i.effect = e := by
  unfold effect
  cases hop : i.opcode <;> rw [hop] at h <;> cases h <;> rfl

theorem Opcode.effect_ne_none_of_offset {op : Opcode}
    (h : op.control = some .jump ∨ ∃ kind, op.control = some (.branch kind)) : op.effect ≠ none := by
  rcases h with h | ⟨kind, h⟩ <;> cases op <;> cases h <;> nofun

namespace Directive

variable {word : Label → Nat → Word} {d : Directive} {p : Nat}

/-- The opcode of a raw line takes its operand words, and tells by itself how many values it takes and
puts. -/
def Counted : Directive → Prop
  | .emit op operands => op.Takes operands ∧ op.effect ≠ none
  | d => d.Proper

/-- Words beyond the operands of a raw line are code that is not counted, here a second `putnil`. -/
example : let a := ofDirectives [.emit .putNil [Opcode.putNil.word], .emit .pop [], .emit .leave []]
    a.maxDepth = 1 ∧ a.words = .ok [2, 2, 9, 23] := by decide

theorem size_of_line? {line : Opcode × List Word} (h : d.line? word p = some line) :
    d.size = 1 + line.2.length := by
  rw [← length_words d word p, words, h]
  simp [Code.spell, Nat.add_comm]

theorem size_of_line?_eq_none (h : d.line? word p = none) : d.size = 0 := by
  rw [← length_words d word p, words, h]
  rfl

/-- Only marks have no words, and they leave the count as it is. -/
theorem effect?_of_size (h : d.size = 0) : d.effect? = none := by
  cases hd : d.line? (fun _ _ => 0) 0 with
  | some line =>
    rw [size_of_line? hd] at h
    omega
  | none =>
    rw [line?_eq_none_iff] at hd
    cases d <;> first | rfl | cases hd

theorem Counted.takes {line : Opcode × List Word} (h : d.Counted) (found : d.line? word p = some line)
    (fits : line.2.length < 2 ^ 63) : line.1.Takes line.2 := by
  cases d with
  | emit op operands =>
    cases found
    exact h.1
  | _ =>
    refine takes_of_line? ?_ found fits
    exact h

/-- An instruction puts as many values as are counted for its line, and takes no fewer. -/
theorem Counted.effect {i : Instr} (h : d.Counted) (found : d.line? word p = some i.line) :
    ∃ pops, d.effect? = some (pops, i.effect.2) ∧ pops ≤ i.effect.1 := by
  have alone {op : Opcode} (opcode : i.opcode = op) (known : op.effect ≠ none)
      (counts : d.effect? = op.effect) :
      ∃ pops, d.effect? = some (pops, i.effect.2) ∧ pops ≤ i.effect.1 := by
    obtain ⟨e, he⟩ := Option.ne_none_iff_exists'.mp known
    rw [Instr.effect_of_opcode (opcode ▸ he), counts, he]
    exact ⟨e.1, rfl, Nat.le_refl _⟩
  have opcode {op : Opcode} {operands : List Word} (h : some (op, operands) = some i.line) :
      i.opcode = op := (congrArg Prod.fst (Option.some.inj h)).symm
  cases d with
  | emit op operands => exact alone (opcode found) h.2 rfl
  | putObject v =>
    simp only [line?] at found
    split at found
    · exact alone (opcode found) (by decide) rfl
    · split at found <;> exact alone (opcode found) (by decide) rfl
  | newArray count =>
    have effect : i.effect = (count.toNat, 1) := by
      rw [Instr.effect, opcode found]
      dsimp only
      rw [Instr.word_eq_line, ← Option.some.inj found]
      rfl
    rw [effect]
    exact ⟨_, rfl, Nat.le_refl _⟩
  | send selector count =>
    have effect := Instr.effect_of_sends (line_sends (Option.some.inj found).symm).1
    have le : (count + 1).toNat ≤ count.toNat + 1 := by
      rw [UInt64.toNat_add]
      exact Nat.mod_le _ _
    rw [effect]
    exact ⟨_, rfl, le⟩
  | jump op label => exact alone (opcode found) (Opcode.effect_ne_none_of_offset h) rfl
  | dispatch cases other => exact alone (opcode found) (by decide) rfl
  | mark label => cases found

end Directive

namespace Assembly

variable {a : Assembly} {ds : List Directive} {word : Label → Nat → Word}

/-- Each instruction of lines that were placed one after the other stands where its line was added. -/
theorem exists_line_of_mem_place {i : Instr}
    (hi : i ∈ Code.place a.position (a.lines word ds)) :
    ∃ before d after line, ds = before ++ d :: after ∧
      d.line? word (before.foldl add a).position = some line ∧
      i = Instr.ofLine (before.foldl add a).position line := by
  induction ds generalizing a with
  | nil => cases hi
  | cons d ds ih =>
    rw [lines_cons] at hi
    cases found : d.line? word a.position with
    | none =>
      have hsame : (a.add d).position = a.position := by
        rw [position_add_size, Directive.size_of_line?_eq_none found, Nat.add_zero]
      rw [found, ← hsame] at hi
      obtain ⟨before, d', after, line, rfl, hline, rfl⟩ := ih hi
      exact ⟨d :: before, d', after, line, rfl, hline, rfl⟩
    | some line =>
      have hnext : a.position + (1 + line.2.length) = (a.add d).position := by
        rw [position_add_size, Directive.size_of_line? found]
      rw [found] at hi
      rcases List.mem_cons.mp hi with rfl | hi
      · exact ⟨[], d, ds, line, rfl, found, rfl⟩
      · rw [hnext] at hi
        obtain ⟨before, d', after, line, rfl, hline, rfl⟩ := ih hi
        exact ⟨d :: before, d', after, line, rfl, hline, rfl⟩

/-- The lines have as many operands as their opcodes take. -/
theorem takes_lines (counted : ∀ d ∈ ds, d.Counted) (fits : (ds.foldl add a).position < 2 ^ 63) :
    ∀ l ∈ a.lines word ds, l.1.Takes l.2 := by
  induction ds generalizing a with
  | nil => exact List.forall_mem_nil _
  | cons d ds ih =>
    obtain ⟨hd, hds⟩ := List.forall_mem_cons.mp counted
    rw [lines_cons, List.forall_mem_append]
    refine ⟨fun l hl => ?_, ih hds fits⟩
    have found : d.line? word a.position = some l := Option.mem_toList.mp hl
    have hle := position_le_foldl (a.add d) ds
    rw [position_add_size, Directive.size_of_line? found] at hle
    rw [List.foldl_cons] at fits
    exact hd.takes found (by omega)

/-- Lines that add no words leave the count as it is. -/
theorem heights_of_position (same : (ds.foldl add a).position = a.position) :
    (ds.foldl add a).heights = a.heights := by
  induction ds generalizing a with
  | nil => rfl
  | cons d ds ih =>
    have hle := position_le_foldl (a.add d) ds
    have hadd := position_add_size (a := a) d
    rw [List.foldl_cons] at same ⊢
    have hsize : d.size = 0 := by omega
    rw [ih (by omega), heights_add, Directive.effect?_of_size hsize]
    rfl

theorem maxDepth_le_foldl (a : Assembly) (ds : List Directive) :
    a.maxDepth ≤ (ds.foldl add a).maxDepth := by
  induction ds generalizing a with
  | nil => exact Nat.le_refl _
  | cons d ds ih =>
    have hadd : (a.add d).maxDepth = (heightsAfter a.heights d.effect?).2 :=
      congrArg Prod.snd (heights_add d)
    refine Nat.le_trans ?_ (ih (a.add d))
    rw [hadd]
    cases d.effect? with
    | none => exact Nat.le_refl _
    | some e => exact Nat.le_max_left _ _

/-! ### Text as far as some line -/

variable {before before' : List Directive}

theorem exists_foldl_of_prefix (part : before <+: ds) :
    ∃ after : List Directive, ofDirectives ds = after.foldl add (ofDirectives before) := by
  obtain ⟨after, rfl⟩ := part
  exact ⟨after, List.foldl_append ..⟩

theorem position_le_of_prefix (part : before <+: ds) :
    (ofDirectives before).position ≤ (ofDirectives ds).position := by
  obtain ⟨after, h⟩ := exists_foldl_of_prefix part
  rw [h]
  exact position_le_foldl _ after

/-- The depths counted up to a line stay below the estimate. -/
theorem depth_le_of_prefix {d : Directive} {pops pushes : Nat} (part : before ++ [d] <+: ds)
    (counts : (ofDirectives (before ++ [d])).heights =
      heightsAfter (ofDirectives before).heights (some (pops, pushes))) :
    (ofDirectives before).depth - pops + pushes ≤ (ofDirectives ds).maxDepth := by
  obtain ⟨after, h⟩ := exists_foldl_of_prefix part
  have greatest : (ofDirectives (before ++ [d])).maxDepth = _ := congrArg Prod.snd counts
  rw [h]
  refine Nat.le_trans ?_ (maxDepth_le_foldl _ after)
  rw [greatest]
  exact Nat.le_max_right _ _

/-- What is counted up to a position does not depend on the marks there. -/
theorem depth_eq_of_position (part : before <+: ds) (part' : before' <+: ds)
    (same : (ofDirectives before').position = (ofDirectives before).position) :
    (ofDirectives before').depth = (ofDirectives before).depth := by
  rcases List.prefix_or_prefix_of_prefix part part' with h | h
  · obtain ⟨after, h⟩ := exists_foldl_of_prefix h
    rw [h] at same ⊢
    exact congrArg Prod.fst (heights_of_position same)
  · obtain ⟨after, h⟩ := exists_foldl_of_prefix h
    rw [h] at same ⊢
    exact congrArg Prod.fst (heights_of_position same.symm).symm

/-- Wherever the text comes to a position at which control does not come from above, the paths bring at
most `k` values more than are counted. -/
def LandsWithin (ds : List Directive) (m : Method) (k : Nat) : Prop :=
  ∀ before, before <+: ds → ∀ d, m.Reaches (ofDirectives before).position d →
    ¬ m.FallsInto (ofDirectives before).position → d ≤ (ofDirectives before).depth + k

section Built

variable {name : String} {params locals : Nat} {m : Method} (counted : ∀ d ∈ ds, d.Counted)
  (fits : (ofDirectives ds).position < 2 ^ 63)
  (built : (ofDirectives ds).build name params locals none = .ok m)

include counted fits built

/-- The code that was built has the instructions of the lines, and the estimate as its bound. -/
theorem place_of_build : ∃ word, m.instrs = Code.place 0 (({} : Assembly).lines word ds) ∧
    m.stackMax = (ofDirectives ds).maxDepth := by
  rcases forall_or_firstBad (fun l => .mark l ∈ ds) (ds.flatMap Directive.labels) with
    marked | ⟨label, first⟩
  · let word := offsetTo (ofDirectives ds).dest
    have placed : ({} : Assembly).Placed := List.forall_mem_nil _
    have spelt : (ofDirectives ds).filled word = Code.spell (({} : Assembly).lines word ds) :=
      filled_foldl word placed ds
    have takes : ∀ l ∈ ({} : Assembly).lines word ds, l.1.Takes l.2 := takes_lines counted fits
    have spells := (Code.spells_place takes 0).1
    rw [← spelt] at spells
    obtain ⟨-, -, hmax, -, -, instrs⟩ := of_build (words_of_marks marked) spells built
    exact ⟨word, instrs, hmax⟩
  · rw [build_of_unmarked first] at built
    cases built

/-- Before and after an instruction the text has come to where it starts and ends, and the values that
it puts are counted in between, with no more taken than it takes. -/
theorem exists_line {i : Instr} (hi : i ∈ m.instrs) : ∃ before d pops, before ++ [d] <+: ds ∧
    (ofDirectives before).position = i.position ∧
    (ofDirectives (before ++ [d])).position = i.next ∧ pops ≤ i.effect.1 ∧
    (ofDirectives (before ++ [d])).heights =
      heightsAfter (ofDirectives before).heights (some (pops, i.effect.2)) := by
  obtain ⟨word, instrs, -⟩ := place_of_build counted fits built
  rw [instrs] at hi
  obtain ⟨before, d, after, line, rfl, found, rfl⟩ :=
    exists_line_of_mem_place (a := ({} : Assembly)) hi
  change d.line? word (ofDirectives before).position = some line at found
  have hd : d ∈ before ++ d :: after := List.mem_append_right _ List.mem_cons_self
  have part : before ++ [d] <+: before ++ d :: after := ⟨after, by simp⟩
  have next : (ofDirectives (before ++ [d])).position =
      (ofDirectives before).position + (1 + line.2.length) := by
    rw [ofDirectives_concat, position_add_size, Directive.size_of_line? found]
  have inside := position_le_of_prefix part
  have takes := (counted d hd).takes found (by omega)
  have same := (Instr.ofLine_spec takes (ofDirectives before).position).2
  obtain ⟨pops, counts, le⟩ := (counted d hd).effect (found.trans (congrArg some same.symm))
  refine ⟨before, d, pops, part, rfl, ?_, le, ?_⟩
  · rw [next, ← Instr.size_ofLine takes (ofDirectives before).position]
    rfl
  · rw [ofDirectives_concat, heights_add, counts]
    rfl

/-- Up to an instruction no path brings more than the count and what it falls short by where control
does not come from above. -/
theorem depth_le_of_lands (disciplined : m.Disciplined) {k : Nat} (lands : LandsWithin ds m k)
    {before : List Directive} (part : before <+: ds) {i : Instr}
    (found : m.instrAt? (ofDirectives before).position = some i) {d : Int}
    (path : m.Reaches (ofDirectives before).position d) : d ≤ (ofDirectives before).depth + k := by
  -- along the text: from an instruction whose depth is bounded control may fall into the next one
  induction hp : (ofDirectives before).position using Nat.strong_induction_on
    generalizing before i d with
  | _ p ih =>
  by_cases falls : m.FallsInto (ofDirectives before).position
  · obtain ⟨j, hj, d₀, path₀, hnext, leads⟩ := falls
    obtain ⟨earlier, line, pops, part', start, finish, le, counts⟩ :=
      exists_line counted fits built hj
    have found₀ := Method.instrAt?_eq_some_iff.mpr ⟨hj, start.symm⟩
    rw [← start] at path₀
    have finds := disciplined.finds _ _ _ found₀ path₀
    have above : (ofDirectives earlier).position < p := by
      rw [← hp, ← hnext, start]
      exact j.position_lt_next
    have bound := ih _ above ((List.prefix_append ..).trans part') found₀ path₀ rfl
    have counted' : (ofDirectives (earlier ++ [line])).depth =
        (ofDirectives earlier).depth - pops + j.effect.2 := congrArg Prod.fst counts
    have same := depth_eq_of_position part part' (finish.trans hnext)
    have hd := disciplined.level _ _ _ _ found (path₀.step found₀ leads) path
    omega
  · exact lands before part d path falls

end Built

/-- The estimate and the most that the count falls short by where control does not come from above
bound the depth after every instruction on every path of a method whose paths keep the discipline.
With so much room its code never overflows. A memory whose addresses are words holds no code of 2^63
words. -/
theorem estimate_suffices (name : String) (params locals : Nat) (ds : List Directive)
    (counted : ∀ d ∈ ds, d.Counted) (fits : (ofDirectives ds).position < 2 ^ 63) (m : Method)
    (built : (ofDirectives ds).build name params locals none = .ok m)
    (disciplined : m.Disciplined) (k : Nat) (lands : LandsWithin ds m k) :
    (∀ p i d, m.instrAt? p = some i → m.Reaches p d →
      d - i.effect.1 + i.effect.2 ≤ m.stackMax + k) ∧
    ∀ c : Compiler, c.lowering = .standard → c.method.code = m.code →
      m.stackMax + k ≤ c.method.stackMax →
      ∀ x max next, (c.compile x).result ≠ .error (.stackOverflow max next) := by
  have bounded (p : Nat) (i : Instr) (d : Int) (found : m.instrAt? p = some i)
      (path : m.Reaches p d) : d - i.effect.1 + i.effect.2 ≤ m.stackMax + k := by
    obtain ⟨hi, rfl⟩ := Method.instrAt?_eq_some_iff.mp found
    obtain ⟨before, line, pops, part, start, -, le, counts⟩ := exists_line counted fits built hi
    obtain ⟨-, -, estimate⟩ := place_of_build counted fits built
    have finds := disciplined.finds _ _ _ found path
    have bound : d ≤ (ofDirectives before).depth + k := by
      rw [← start] at found path
      exact depth_le_of_lands counted fits built disciplined lands
        ((List.prefix_append ..).trans part) found path
    have room := depth_le_of_prefix part counts
    omega
  refine ⟨bounded, fun c standard same room x max next failed => ?_⟩
  have exhibits := Compiler.exhibits_of_error standard failed
  cases exhibits with
  | @fault p d i _ path found faults =>
    cases faults with
    | overflow takes above =>
      have found' : m.instrAt? p = some i := by
        rw [Method.instrAt?, ← Method.instrs_of_code same]
        exact found
      have bound := bounded p i d found' (path.reaches.of_code same)
      omega

/-- Control comes to `L` with a value that is not counted, since the line above takes it: `putnil;
putself; branchif L; leave; L: putnil; putnil; pop; pop; leave`. -/
def landing : List Directive :=
  [.emit .putNil [], .emit .putSelf [], .jump .branchIf 0, .emit .leave [], .mark 0,
    .emit .putNil [], .emit .putNil [], .emit .pop [], .emit .pop [], .emit .leave []]

def landed : Method where
  name := "landing"
  code := [2, 3, 26, 1, 23, 2, 2, 9, 9, 23]
  stackMax := 2
  params := 0
  locals := 0
  instrs := [⟨0, .putNil, []⟩, ⟨1, .putSelf, []⟩, ⟨2, .branchIf, [.offset 1]⟩, ⟨4, .leave, []⟩,
    ⟨5, .putNil, []⟩, ⟨6, .putNil, []⟩, ⟨7, .pop, []⟩, ⟨8, .pop, []⟩, ⟨9, .leave, []⟩]
  verified := by cbv

/-- What the paths through `landed` bring to each position. -/
def landedDepths : List (Nat × Int) :=
  [(0, 0), (1, 1), (2, 2), (4, 1), (5, 1), (6, 2), (7, 3), (8, 2), (9, 1)]

theorem landed_steps : ∀ s ∈ landedDepths, ∀ i ∈ landed.instrs, i.position = s.1 →
    ∀ q ∈ i.successors, (q, s.2 - i.effect.1 + i.effect.2) ∈ landedDepths := by
  decide

theorem landing_builds : (ofDirectives landing).build "landing" 0 0 none = .ok landed := by
  have finished : (ofDirectives landing).words = .ok landed.code := by rfl
  rw [build_of_words finished, mapError_eq_ok_iff]
  exact Method.ofCode_eq_ok_iff.mpr ⟨rfl, rfl, rfl, rfl, rfl⟩

theorem landing_counted : ∀ d ∈ landing, d.Counted := by
  simp [landing, Directive.Counted, Directive.Proper, Opcode.takes_iff, Opcode.kinds, Opcode.layout,
    Opcode.effect, Opcode.control]

theorem landed_disciplined : landed.Disciplined :=
  Method.disciplined_of_depths (by decide) landed_steps (by decide) (by decide)
    (by intro kind; cases kind <;> decide)

/-- The paths of `landed` keep the discipline, and go beyond the estimate. -/
theorem landing_overflows : (∀ d ∈ landing, d.Counted) ∧
    (ofDirectives landing).build "landing" 0 0 none = .ok landed ∧ landed.Disciplined ∧
    (∃ i, landed.instrAt? 6 = some i ∧ landed.Reaches 6 2 ∧
      landed.stackMax < (2 : Int) - i.effect.1 + i.effect.2) ∧
    ((⟨landed, .standard, true⟩ : Compiler).compile .standard).result =
      .error (.stackOverflow 2 3) := by
  have path : landed.Reaches 6 2 := by
    have h₁ := Method.Reaches.start.step (m := landed) (i := ⟨0, .putNil, []⟩) (q := 1)
      (by cbv) (by decide)
    have h₂ := h₁.step (i := ⟨1, .putSelf, []⟩) (q := 2) (by cbv) (by decide)
    have h₃ := h₂.step (i := ⟨2, .branchIf, [.offset 1]⟩) (q := 5) (by cbv) (by decide)
    exact h₃.step (i := ⟨5, .putNil, []⟩) (by cbv) (by decide)
  exact ⟨landing_counted, landing_builds, landed_disciplined,
    ⟨⟨6, .putNil, []⟩, by cbv, path, by decide⟩, by cbv⟩

/-- One value more than the estimate is room enough. -/
theorem landing_within : (∀ d ∈ landing, d.Counted) ∧
    (ofDirectives landing).build "landing" 0 0 none = .ok landed ∧ landed.Disciplined ∧
    LandsWithin landing landed 1 ∧
    ∀ max next, ((⟨{ landed with stackMax := 3 }, .standard, true⟩ : Compiler).compile
      .standard).result ≠ .error (.stackOverflow max next) := by
  have lands : LandsWithin landing landed 1 := by
    have noted : ∀ before ∈ landing.inits, ∀ s ∈ landedDepths,
        s.1 = (ofDirectives before).position → s.2 ≤ (ofDirectives before).depth + 1 := by
      decide
    intro before part d path _
    exact noted before ((List.mem_inits _ _).mpr part) _
      (path.mem_of_depths (by decide) landed_steps) rfl
  have room := (estimate_suffices "landing" 0 0 landing landing_counted (by decide) landed
    landing_builds landed_disciplined 1 lands).2 ⟨{ landed with stackMax := 3 }, .standard, true⟩ rfl rfl
    (Nat.le_refl _) .standard
  exact ⟨landing_counted, landing_builds, landed_disciplined, lands, room⟩

end Assembly

end StackFlow
