import StackFlow.Proofs.Code.Decoding
import StackFlow.Proofs.Code.Destinations

/-!
Which code a method can have. A list of words is accepted just if it is well formed, and otherwise the
first check that it does not pass is reported, at the first instruction where that is so.
-/
namespace StackFlow

/-- The first element of a list that is not good. -/
def FirstBad {α : Type} (good : α → Prop) (xs : List α) (x : α) : Prop :=
  ∃ before after, xs = before ++ x :: after ∧ (∀ y ∈ before, good y) ∧ ¬ good x

theorem FirstBad.mem {α : Type} {good : α → Prop} {xs : List α} {x : α} (h : FirstBad good xs x) :
    x ∈ xs := by
  obtain ⟨before, after, rfl, -⟩ := h
  simp

theorem FirstBad.not_good {α : Type} {good : α → Prop} {xs : List α} {x : α}
    (h : FirstBad good xs x) : ¬ good x := by
  obtain ⟨before, after, -, -, bad⟩ := h
  exact bad

/-- Unless all elements are good there is a first that is not. -/
theorem forall_or_firstBad {α : Type} (good : α → Prop) (xs : List α) :
    (∀ x ∈ xs, good x) ∨ ∃ x, FirstBad good xs x := by
  induction xs with
  | nil => exact .inl nofun
  | cons x xs ih =>
    by_cases hx : good x
    · rcases ih with all | ⟨y, before, after, rfl, hbefore, hy⟩
      · exact .inl (List.forall_mem_cons.mpr ⟨hx, all⟩)
      · exact .inr ⟨y, x :: before, after, rfl, List.forall_mem_cons.mpr ⟨hx, hbefore⟩, hy⟩
    · exact .inr ⟨x, [], xs, rfl, nofun, hx⟩

/-- A search for what is bad ends at the first bad element. -/
theorem FirstBad.findSome?_eq {α β : Type} {f : α → Option β} {good : α → Prop} {xs : List α}
    {x : α} (first : FirstBad good xs x) (passes : ∀ y ∈ xs, f y = none ↔ good y) {b : β}
    (found : f x = some b) :
    xs.findSome? f = some b := by
  obtain ⟨before, after, rfl, hbefore, -⟩ := first
  refine List.findSome?_eq_some_iff.mpr ⟨before, x, after, rfl, found, fun y hy => ?_⟩
  exact (passes y (List.mem_append_left _ hy)).mpr (hbefore y hy)

/-- The first of several keys that has come before. -/
def FirstRepeated (keys : List Value) (k : Value) : Prop :=
  ∃ before after, keys = before ++ k :: after ∧ before.Nodup ∧ k ∈ before

namespace Instr

/-- The key words of a dispatch table. -/
def keys (i : Instr) : List Value :=
  i.operands.filterMap fun
    | .value v => some v
    | _ => none

/-- The local that the instruction names is in the frame. -/
def InFrame (locals : Nat) (i : Instr) : Prop :=
  i.opcode = .getLocal ∨ i.opcode = .setLocal → (i.word 0).toNat < locals

/-- No two cases of the instruction have one key. -/
def KeysDiffer (i : Instr) : Prop := i.opcode = .caseDispatch → i.keys.Nodup

theorem keys_of_entries? {i : Instr} {operands : List Operand} {cases : List (Value × Nat)}
    {other : Nat} (h : i.entries? operands = some (cases, other)) :
    (operands.filterMap fun
      | .value v => some v
      | _ => none) = cases.map Prod.fst := by
  fun_induction i.entries? operands generalizing cases other with
  | case1 w =>
    obtain ⟨p, -, he⟩ := Option.bind_eq_some_iff.mp h
    cases he
    rfl
  | case2 key w rest ih =>
    obtain ⟨dest, -, h₁⟩ := Option.bind_eq_some_iff.mp h
    obtain ⟨⟨more, last⟩, hm, he⟩ := Option.bind_eq_some_iff.mp h₁
    cases he
    simp only [List.filterMap_cons, List.map_cons, ih hm]
  | case3 => cases h

/-- The keys of a dispatch table are those of its cases. -/
theorem Whole.keys_eq {i : Instr} (whole : i.Whole) {cases : List (Value × Nat)} {other : Nat}
    (table : i.dispatchTable? = some (cases, other)) : i.keys = cases.map Prod.fst := by
  unfold dispatchTable? at table
  split at table
  next op =>
    obtain ⟨n, count, rest, hops, -⟩ := whole.table_operands op
    rw [hops, List.tail_cons] at table
    rw [keys, hops, List.filterMap_cons, keys_of_entries? table]
  next => cases table

end Instr

namespace Code

/-- An instruction of the code stands at the target. -/
def LandsOn (instrs : List Instr) (length : Nat) (t : Int) : Prop :=
  0 ≤ t ∧ t < length ∧ ∃ j ∈ instrs, (j.position : Int) = t

theorem repeatedKey?_eq_some_iff {seen keys : List Value} {k : Value} (nodup : seen.Nodup) :
    repeatedKey? seen keys = some k ↔
      ∃ before after, keys = before ++ k :: after ∧ (seen.reverse ++ before).Nodup ∧
        k ∈ seen.reverse ++ before := by
  induction keys generalizing seen with
  | nil => simp [repeatedKey?]
  | cons x keys ih =>
    unfold repeatedKey?
    split
    next old =>
      constructor
      · rintro ⟨⟩
        exact ⟨[], keys, rfl, by simpa using nodup, by simpa using old⟩
      · rintro ⟨before, after, hsplit, hnodup, -⟩
        cases before with
        | nil => rw [(List.cons.inj hsplit).1]
        | cons y before =>
          obtain ⟨rfl, -⟩ := List.cons.inj hsplit
          have hapart := (List.nodup_append.mp hnodup).2.2
          exact absurd rfl (hapart x (by simpa using old) x List.mem_cons_self)
    next new =>
      rw [ih (List.nodup_cons.mpr ⟨new, nodup⟩), List.reverse_cons]
      simp only [List.append_assoc, List.cons_append, List.nil_append]
      constructor
      · rintro ⟨before, after, rfl, hnodup, hk⟩
        exact ⟨x :: before, after, rfl, hnodup, hk⟩
      · rintro ⟨before, after, hsplit, hnodup, hk⟩
        cases before with
        | nil =>
          obtain ⟨rfl, -⟩ := List.cons.inj hsplit
          exact absurd (by simpa using hk) new
        | cons y before =>
          obtain ⟨rfl, rfl⟩ := List.cons.inj hsplit
          exact ⟨before, after, rfl, hnodup, hk⟩

theorem repeatedKey?_nil_eq_some_iff {keys : List Value} {k : Value} :
    repeatedKey? [] keys = some k ↔ FirstRepeated keys k :=
  repeatedKey?_eq_some_iff List.nodup_nil

theorem repeatedKey?_nil_eq_none_iff {keys : List Value} :
    repeatedKey? [] keys = none ↔ keys.Nodup := by
  refine ⟨fun h => (nodup_of_repeatedKey? h).1, fun nodup => ?_⟩
  cases h : repeatedKey? [] keys with
  | none => rfl
  | some k =>
    obtain ⟨before, after, rfl, -, hk⟩ := repeatedKey?_nil_eq_some_iff.mp h
    exact absurd rfl ((List.nodup_append.mp nodup).2.2 k hk k List.mem_cons_self)

variable {instrs : List Instr} {length : Nat} {i : Instr} {e : CodeError}

theorem badTarget?_eq_none_iff :
    badTarget? instrs length i = none ↔ ∀ t ∈ i.targets, LandsOn instrs length t := by
  unfold badTarget?
  rw [Option.map_eq_none_iff, List.find?_eq_none]
  simp [LandsOn, and_assoc]

theorem badTarget?_of_firstBad {t : Int} (astray : FirstBad (LandsOn instrs length) i.targets t) :
    badTarget? instrs length i = some (.invalidJumpTarget (min t maxTarget) i.position) := by
  obtain ⟨before, after, hsplit, hbefore, hbad⟩ := astray
  unfold badTarget?
  rw [Option.map_eq_some_iff]
  refine ⟨t, List.find?_eq_some_iff_append.mpr ⟨?_, before, after, hsplit, fun u hu => ?_⟩, rfl⟩
  · rw [Bool.not_eq_true', ← Bool.not_eq_true]
    simpa [LandsOn] using hbad
  · simpa [LandsOn, and_assoc] using hbefore u hu

theorem badLocal?_eq_none_iff {locals : Nat} : badLocal? locals i = none ↔ i.InFrame locals := by
  unfold badLocal? Instr.InFrame
  rw [ite_eq_right_iff]
  simp

theorem badLocal?_of_not_inFrame {locals : Nat} (outside : ¬ i.InFrame locals) :
    badLocal? locals i = some (.invalidLocalRef (i.word 0) locals i.position) := by
  unfold badLocal?
  refine if_pos ?_
  simpa [Instr.InFrame] using outside

theorem badKey?_eq_none_iff (whole : i.Whole) (nonneg : ∀ t ∈ i.targets, 0 ≤ t) :
    badKey? i = none ↔ i.KeysDiffer := by
  unfold badKey? Instr.KeysDiffer
  by_cases op : i.opcode = .caseDispatch
  · obtain ⟨cases, other, table⟩ := whole.exists_dispatchTable? op nonneg
    rw [table, Option.bind_some, Option.map_eq_none_iff, repeatedKey?_nil_eq_none_iff,
      ← whole.keys_eq table]
    exact ⟨fun nodup _ => nodup, fun nodup => nodup op⟩
  · rw [Instr.dispatchTable?, if_neg op]
    exact ⟨fun _ h => absurd h op, fun _ => rfl⟩

theorem badKey?_of_firstRepeated (whole : i.Whole) (nonneg : ∀ t ∈ i.targets, 0 ≤ t)
    (op : i.opcode = .caseDispatch) {k : Value} (key : FirstRepeated i.keys k) :
    badKey? i = some (.duplicateCaseKey k i.position) := by
  obtain ⟨cases, other, table⟩ := whole.exists_dispatchTable? op nonneg
  rw [whole.keys_eq table] at key
  rw [badKey?, table, Option.bind_some, repeatedKey?_nil_eq_some_iff.mpr key, Option.map_some]

/-- The code consists of these instructions, and the frame has room for the parameters. -/
structure Decodes (code : List Word) (params locals : Nat) (instrs : List Instr) : Prop where
  nonempty : code ≠ []
  params_le : params ≤ locals
  spells : Spells 0 instrs code

/-- All offsets lead to instructions. -/
structure Lands (code : List Word) (params locals : Nat) (instrs : List Instr) : Prop
    extends Decodes code params locals instrs where
  lands : ∀ i ∈ instrs, ∀ t ∈ i.targets, LandsOn instrs code.length t

/-- All offsets lead to instructions, and all locals are there. -/
structure Framed (code : List Word) (params locals : Nat) (instrs : List Instr) : Prop
    extends Lands code params locals instrs where
  inFrame : ∀ i ∈ instrs, i.InFrame locals

/-- Code that a method can have. -/
structure WellFormed (code : List Word) (params locals : Nat) (instrs : List Instr) : Prop
    extends Framed code params locals instrs where
  keysDiffer : ∀ i ∈ instrs, i.KeysDiffer

/-- What is wrong with code that no method can have: the first check that it does not pass, at the first
instruction that does not pass it. A target that no signed word holds is reported as the largest one. -/
inductive Rejected (code : List Word) (params locals : Nat) : CodeError → Prop
  | empty (nothing : code = []) : Rejected code params locals .empty
  | params (nonempty : code ≠ []) (many : locals < params) :
      Rejected code params locals (.tooManyParams params locals)
  | undecodable {e : CodeError} (nonempty : code ≠ []) (params_le : params ≤ locals)
      (bad : Undecodable code e) : Rejected code params locals e
  | target {instrs : List Instr} {i : Instr} {t : Int} (decodes : Decodes code params locals instrs)
      (first : FirstBad (fun k => ∀ t ∈ k.targets, LandsOn instrs code.length t) instrs i)
      (astray : FirstBad (LandsOn instrs code.length) i.targets t) :
      Rejected code params locals (.invalidJumpTarget (min t maxTarget) i.position)
  | missing {instrs : List Instr} {i : Instr} (landing : Lands code params locals instrs)
      (first : FirstBad (Instr.InFrame locals) instrs i) :
      Rejected code params locals (.invalidLocalRef (i.word 0) locals i.position)
  | repeated {instrs : List Instr} {i : Instr} {k : Value} (framed : Framed code params locals instrs)
      (first : FirstBad Instr.KeysDiffer instrs i) (key : FirstRepeated i.keys k) :
      Rejected code params locals (.duplicateCaseKey k i.position)

section Verify

variable {code : List Word} {params locals : Nat}

/-- What the checks of decoded instructions find, the first check first. -/
def fault? (instrs : List Instr) (length locals : Nat) : Option CodeError :=
  instrs.findSome? (badTarget? instrs length)
    <|> instrs.findSome? (badLocal? locals)
    <|> instrs.findSome? badKey?

/-- Once the code is decoded, the checks of its instructions decide. -/
theorem Decodes.verify_of_fault? (h : Decodes code params locals instrs) :
    (fault? instrs code.length locals = none → verify code params locals = .ok instrs) ∧
      ∀ e, fault? instrs code.length locals = some e → verify code params locals = .error e := by
  have nonempty : ¬ code.isEmpty = true := by simpa using h.nonempty
  have room := Nat.not_lt.mpr h.params_le
  have decoded := decodeAll_eq_ok_iff.mpr h.spells
  constructor
  · intro found
    rw [fault?] at found
    simp only [verify, if_neg nonempty, if_neg room, decoded, found]
  · intro e found
    rw [fault?] at found
    simp only [verify, if_neg nonempty, if_neg room, decoded, found]

theorem Lands.targets_eq_none (h : Lands code params locals instrs) :
    instrs.findSome? (badTarget? instrs code.length) = none :=
  List.findSome?_eq_none_iff.mpr fun k hk => badTarget?_eq_none_iff.mpr (h.lands k hk)

theorem Framed.locals_eq_none (h : Framed code params locals instrs) :
    instrs.findSome? (badLocal? locals) = none :=
  List.findSome?_eq_none_iff.mpr fun k hk => badLocal?_eq_none_iff.mpr (h.inFrame k hk)

theorem Lands.nonneg (h : Lands code params locals instrs) (hi : i ∈ instrs) :
    ∀ t ∈ i.targets, 0 ≤ t := fun t ht => (h.lands i hi t ht).1

theorem Lands.badKey?_eq_none_iff (h : Lands code params locals instrs) :
    ∀ k ∈ instrs, badKey? k = none ↔ k.KeysDiffer := fun k hk =>
  Code.badKey?_eq_none_iff (h.spells.whole k hk) (h.nonneg hk)

theorem verify_of_wellFormed (h : WellFormed code params locals instrs) :
    verify code params locals = .ok instrs := by
  have keys : instrs.findSome? badKey? = none := List.findSome?_eq_none_iff.mpr fun k hk =>
    (h.badKey?_eq_none_iff k hk).mpr (h.keysDiffer k hk)
  apply h.verify_of_fault?.1
  rw [fault?, h.targets_eq_none, h.locals_eq_none, keys]
  rfl

theorem verify_of_rejected (h : Rejected code params locals e) :
    verify code params locals = .error e := by
  cases h with
  | empty nothing => rw [nothing]; rfl
  | params nonempty many => simp [verify, nonempty, many]
  | undecodable nonempty params_le bad =>
    simp [verify, nonempty, Nat.not_lt.mpr params_le, decodeAll_eq_error_iff.mpr bad]
  | target decodes first astray =>
    have targets := first.findSome?_eq (fun k _ => badTarget?_eq_none_iff)
      (badTarget?_of_firstBad astray)
    apply decodes.verify_of_fault?.2
    rw [fault?, targets]
    rfl
  | missing landing first =>
    have frame := first.findSome?_eq (fun k _ => badLocal?_eq_none_iff)
      (badLocal?_of_not_inFrame first.not_good)
    apply landing.verify_of_fault?.2
    rw [fault?, landing.targets_eq_none, frame]
    rfl
  | @repeated instrs i k framed first key =>
    have op : i.opcode = .caseDispatch := (Classical.not_imp.mp first.not_good).1
    have keys := first.findSome?_eq framed.badKey?_eq_none_iff
      (badKey?_of_firstRepeated (framed.spells.whole i first.mem) (framed.nonneg first.mem) op key)
    apply framed.verify_of_fault?.2
    rw [fault?, framed.targets_eq_none, framed.locals_eq_none, keys]
    rfl

/-- The description of what is well formed and the one of what is rejected leave nothing out. -/
theorem wellFormed_or_rejected (code : List Word) (params locals : Nat) :
    (∃ instrs, WellFormed code params locals instrs) ∨ ∃ e, Rejected code params locals e := by
  by_cases nothing : code = []
  · exact .inr ⟨_, .empty nothing⟩
  by_cases many : locals < params
  · exact .inr ⟨_, .params nothing many⟩
  have params_le := Nat.not_lt.mp many
  cases decoded : decodeAll code with
  | error e => exact .inr ⟨e, .undecodable nothing params_le (decodeAll_eq_error_iff.mp decoded)⟩
  | ok instrs =>
    have decodes : Decodes code params locals instrs :=
      ⟨nothing, params_le, decodeAll_eq_ok_iff.mp decoded⟩
    rcases forall_or_firstBad (fun k => ∀ t ∈ k.targets, LandsOn instrs code.length t) instrs with
      lands | ⟨i, first⟩
    · rcases forall_or_firstBad (Instr.InFrame locals) instrs with inFrame | ⟨i, first⟩
      · rcases forall_or_firstBad Instr.KeysDiffer instrs with keysDiffer | ⟨i, first⟩
        · exact .inl ⟨instrs, ⟨⟨decodes, lands⟩, inFrame⟩, keysDiffer⟩
        · obtain ⟨-, twice⟩ := Classical.not_imp.mp first.not_good
          obtain ⟨k, key⟩ := Option.ne_none_iff_exists'.mp fun none =>
            twice (repeatedKey?_nil_eq_none_iff.mp none)
          exact .inr ⟨_, .repeated ⟨⟨decodes, lands⟩, inFrame⟩ first
            (repeatedKey?_nil_eq_some_iff.mp key)⟩
      · exact .inr ⟨_, .missing ⟨decodes, lands⟩ first⟩
    · obtain ⟨t, astray⟩ := (forall_or_firstBad _ i.targets).resolve_left first.not_good
      exact .inr ⟨_, .target decodes first astray⟩

theorem verify_eq_ok_iff : verify code params locals = .ok instrs ↔
    WellFormed code params locals instrs := by
  refine ⟨fun h => ?_, verify_of_wellFormed⟩
  rcases wellFormed_or_rejected code params locals with ⟨is, wellFormed⟩ | ⟨e, rejected⟩
  · rw [verify_of_wellFormed wellFormed] at h
    cases h
    exact wellFormed
  · rw [verify_of_rejected rejected] at h
    cases h

theorem verify_eq_error_iff : verify code params locals = .error e ↔
    Rejected code params locals e := by
  refine ⟨fun h => ?_, verify_of_rejected⟩
  rcases wellFormed_or_rejected code params locals with ⟨is, wellFormed⟩ | ⟨e', rejected⟩
  · rw [verify_of_wellFormed wellFormed] at h
    cases h
  · rw [verify_of_rejected rejected] at h
    cases h
    exact rejected

end Verify

end Code

namespace Method

variable {name : String} {code : List Word} {stackMax params locals : Nat}

theorem exists_ofCode_iff {instrs : List Instr} :
    (∃ m, ofCode name code stackMax params locals = .ok m ∧ m.instrs = instrs) ↔
      Code.verify code params locals = .ok instrs := by
  constructor
  · rintro ⟨m, h, rfl⟩
    obtain ⟨-, rfl, -, rfl, rfl⟩ := ofCode_eq_ok_iff.mp h
    exact m.verified
  · intro h
    exact ⟨⟨name, code, stackMax, params, locals, instrs, h⟩,
      ofCode_eq_ok_iff.mpr ⟨rfl, rfl, rfl, rfl, rfl⟩, rfl⟩

theorem ofCode_eq_error_iff {e : CodeError} :
    ofCode name code stackMax params locals = .error e ↔
      Code.verify code params locals = .error e := by
  unfold ofCode
  split
  next e' failed => rw [failed, Except.error.injEq, Except.error.injEq]
  next instrs accepted =>
    refine ⟨nofun, fun failed => ?_⟩
    rw [accepted] at failed
    cases failed

/-- A method has well-formed code and no other, and of any other code the first thing that is wrong is
reported. The jumps and tables of a method all lead to instructions. -/
theorem ofCode_exact (name : String) (code : List Word) (stackMax params locals : Nat) :
    (∀ instrs, (∃ m, ofCode name code stackMax params locals = .ok m ∧ m.instrs = instrs) ↔
      Code.WellFormed code params locals instrs) ∧
    (∀ e, ofCode name code stackMax params locals = .error e ↔
      Code.Rejected code params locals e) ∧
    (∀ m, ofCode name code stackMax params locals = .ok m → ∀ i ∈ m.instrs,
      ((i.opcode.control = some .jump ∨ ∃ kind, i.opcode.control = some (.branch kind)) →
        ∃ dest, i.jumpTarget? = some dest ∧ m.Holds dest) ∧
      (i.opcode.control = some .dispatch →
        ∃ cases other, i.dispatchTable? = some (cases, other) ∧
          ∀ dest ∈ other :: cases.map Prod.snd, m.Holds dest)) := by
  refine ⟨fun instrs => exists_ofCode_iff.trans Code.verify_eq_ok_iff,
    fun e => ofCode_eq_error_iff.trans Code.verify_eq_error_iff, fun m _ i hi => ⟨?_, ?_⟩⟩
  · intro op
    obtain ⟨dest, leads, target⟩ := exists_jumpTarget? hi (Opcode.layout_of_offset op)
    exact ⟨dest, leads, (holds_target hi target).2⟩
  · intro op
    obtain ⟨cases, other, table, targets⟩ :=
      exists_dispatchTable? hi (Opcode.eq_caseDispatch_of_control op)
    exact ⟨cases, other, table, fun dest hdest => (holds_target hi (targets dest hdest)).2⟩

-- The end of the jump and the greatest offset add up to more than a signed word holds.
example : Code.verify [25, 0x7fffffffffffffff] 0 0 =
    .error (.invalidJumpTarget Code.maxTarget 0) := by cbv

end Method

end StackFlow
