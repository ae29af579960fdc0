import StackFlow.Method
import StackFlow.Proofs.Code.Decoding

/-!
The instructions of a method follow one another without a gap from position 0 to the end of the code.
Every jump leads to one of them, the locals that they name are there, and no two cases of a dispatch
table have one key.
-/
namespace StackFlow

namespace Code

/-- What a method's code passes before it is accepted. -/
theorem verify_eq_ok {code : List Word} {params locals : Nat} {instrs : List Instr}
    (h : verify code params locals = .ok instrs) :
    code ≠ [] ∧ params ≤ locals ∧ decodeAll code = .ok instrs ∧
      instrs.findSome? (badTarget? instrs code.length) = none ∧
      instrs.findSome? (badLocal? locals) = none ∧ instrs.findSome? badKey? = none := by
  unfold verify at h
  split at h
  · cases h
  next hne =>
    split at h
    · cases h
    next hle =>
      split at h
      · cases h
      next is hd =>
        split at h
        · cases h
        next hnone =>
          cases h
          simp only [Option.orElse_eq_orElse, Option.orElse_eq_or, Option.or_eq_none_iff] at hnone
          exact ⟨by simpa using hne, by omega, hd, hnone⟩

/-- Keys that are found in order differ from one another and from those seen before. -/
theorem nodup_of_repeatedKey? {seen keys : List Value} (h : repeatedKey? seen keys = none) :
    keys.Nodup ∧ ∀ k ∈ keys, k ∉ seen := by
  induction keys generalizing seen with
  | nil => exact ⟨List.nodup_nil, nofun⟩
  | cons k keys ih =>
    unfold repeatedKey? at h
    split at h
    · cases h
    next new =>
      obtain ⟨hnodup, hseen⟩ := ih h
      refine ⟨List.nodup_cons.mpr ⟨fun hk => hseen k hk List.mem_cons_self, hnodup⟩, ?_⟩
      exact List.forall_mem_cons.mpr
        ⟨new, fun k' hk' hs => hseen k' hk' (List.mem_cons_of_mem k hs)⟩

end Code

namespace Method

theorem decodeAll_code (m : Method) : Code.decodeAll m.code = .ok m.instrs :=
  (Code.verify_eq_ok m.verified).2.2.1

/-- The decoder finds them in the code, and no others. -/
theorem instrs_of_decodeAll {m : Method} {instrs : List Instr}
    (h : Code.decodeAll m.code = .ok instrs) : m.instrs = instrs :=
  Except.ok.inj (m.decodeAll_code.symm.trans h)

theorem contiguous (m : Method) : Code.Contiguous 0 m.instrs m.length := by
  have h := (Code.decodeAll_eq_ok_iff.mp m.decodeAll_code).contiguous
  rwa [Nat.zero_add] at h

/-- An instruction has the operands that its opcode prescribes. -/
theorem whole {m : Method} {i : Instr} (hi : i ∈ m.instrs) : i.Whole :=
  (Code.decodeAll_eq_ok_iff.mp m.decodeAll_code).whole i hi

theorem length_pos (m : Method) : 0 < m.length :=
  List.length_pos_iff.mpr (Code.verify_eq_ok m.verified).1

theorem instrAt?_eq_some_iff {m : Method} {p : Nat} {i : Instr} :
    m.instrAt? p = some i ↔ i ∈ m.instrs ∧ i.position = p := by
  unfold instrAt?
  constructor
  · intro h
    exact ⟨List.mem_of_find?_eq_some h, by simpa using List.find?_some h⟩
  · rintro ⟨hi, hp⟩
    have hfound : (m.instrs.find? (·.position == p)).isSome := by
      rw [List.find?_isSome]
      exact ⟨i, hi, by simpa using hp⟩
    obtain ⟨j, hj⟩ := Option.isSome_iff_exists.mp hfound
    have hjm := List.mem_of_find?_eq_some hj
    have hjp : j.position = p := by simpa using List.find?_some hj
    rw [hj, m.contiguous.position_injective hjm hi (hjp.trans hp.symm)]

/-- Some instruction has its first word at the position. -/
def Holds (m : Method) (p : Nat) : Prop := ∃ i ∈ m.instrs, i.position = p

theorem Holds.lt_length {m : Method} {p : Nat} (h : m.Holds p) : p < m.length := by
  obtain ⟨i, hi, rfl⟩ := h
  exact Nat.lt_of_lt_of_le i.position_lt_next (m.contiguous.bounds hi).2

theorem holds_zero (m : Method) : m.Holds 0 := by
  have h := m.contiguous
  cases hi : m.instrs with
  | nil =>
    rw [hi] at h
    exact absurd h (Nat.ne_of_lt m.length_pos)
  | cons i is =>
    rw [hi] at h
    exact ⟨i, by simp [hi], h.1⟩

theorem holds_next {m : Method} {i : Instr} (hi : i ∈ m.instrs) (hlt : i.next < m.length) :
    m.Holds i.next := by
  rcases m.contiguous.next_mem hi with he | hj
  · omega
  · exact hj

/-- Every jump leads to an instruction. -/
theorem holds_target {m : Method} {i : Instr} (hi : i ∈ m.instrs) {t : Int} (ht : t ∈ i.targets) :
    0 ≤ t ∧ m.Holds t.toNat := by
  have hnone := (Code.verify_eq_ok m.verified).2.2.2.1
  have hok := List.findSome?_eq_none_iff.mp hnone i hi
  unfold Code.badTarget? at hok
  rw [Option.map_eq_none_iff, List.find?_eq_none] at hok
  have hl := hok t ht
  simp only [Bool.not_eq_true', Bool.and_eq_false_iff, not_or, Bool.not_eq_false,
    decide_eq_true_eq, List.any_eq_true, beq_iff_eq] at hl
  obtain ⟨⟨hpos, -⟩, j, hj, hjt⟩ := hl
  exact ⟨hpos, j, hj, by omega⟩

/-- In code whose positions fit signed words so does every target. -/
theorem target_le {m : Method} (short : m.length ≤ Code.maxTarget + 1) {i : Instr}
    (hi : i ∈ m.instrs) {t : Int} (ht : t ∈ i.targets) : t ≤ Code.maxTarget := by
  obtain ⟨nonneg, holds⟩ := holds_target hi ht
  have := holds.lt_length
  omega

/-- A local that verified code names is there. -/
theorem word_lt_locals {m : Method} {i : Instr} (hi : i ∈ m.instrs)
    (op : i.opcode = .getLocal ∨ i.opcode = .setLocal) : (i.word 0).toNat < m.locals := by
  have hok := List.findSome?_eq_none_iff.mp (Code.verify_eq_ok m.verified).2.2.2.2.1 i hi
  unfold Code.badLocal? at hok
  split at hok
  · cases hok
  next hnot => exact Nat.lt_of_not_le fun hle => hnot ⟨op, hle⟩

/-- The cases of a dispatch table in verified code have different keys. -/
theorem keys_nodup {m : Method} {i : Instr} (hi : i ∈ m.instrs) {cases : List (Value × Nat)}
    {other : Nat} (table : i.dispatchTable? = some (cases, other)) :
    (cases.map Prod.fst).Nodup := by
  have hok := List.findSome?_eq_none_iff.mp (Code.verify_eq_ok m.verified).2.2.2.2.2 i hi
  unfold Code.badKey? at hok
  rw [table, Option.bind_some, Option.map_eq_none_iff] at hok
  exact (Code.nodup_of_repeatedKey? hok).1

end Method

end StackFlow
