import Mathlib
import StackFlow.Extern

/-!
Small integers. A tagged word holds an integer of 63 bits with a sign; what is put into one counts
modulo `2 ^ 63`. Main statement: the host's methods on integers are those of the integers, modulo
`2 ^ 63` where the result is an integer, and all else that is sent is answered by `nil`
(`funcalls_exact`).
-/
namespace StackFlow

namespace Value

/-- The integer that a tagged word holds. -/
def integer? (v : Value) : Option Int := v.fixnum?.map Int64.toInt

/-- The value is the small integer that is `k` modulo `2 ^ 63`. -/
def Wraps (v : Value) (k : Int) : Prop :=
  ∃ r, v.integer? = some r ∧ -2 ^ 62 ≤ r ∧ r < 2 ^ 62 ∧ r % 2 ^ 63 = k % 2 ^ 63

theorem isFixnum_iff (v : Value) : v.isFixnum = true ↔ v.bits.toNat % 2 = 1 := by
  have low : (v.bits &&& 1).toNat = v.bits.toNat % 2 := by
    rw [UInt64.toNat_and]
    exact Nat.and_one_is_mod _
  have zero : v.bits &&& 1 = 0 ↔ v.bits.toNat % 2 = 0 := by
    rw [← UInt64.toNat_inj, low]
    rfl
  rw [isFixnum, bne_iff_ne, ne_eq, zero]
  omega

theorem toInt_shiftRight_one (w : Word) : (w.toInt64 >>> 1).toInt = w.toInt64.toInt / 2 := by
  have shifted : (w.toInt64 >>> 1).toBitVec = w.toInt64.toBitVec.sshiftRight 1 := rfl
  rw [← Int64.toInt_toBitVec, shifted, BitVec.toInt_sshiftRight, Int64.toInt_toBitVec]
  exact Int.shiftRight_eq_div_pow _ 1

/-- The integer of a tagged word is what is left of the word, read with its sign, without the tag. -/
theorem integer?_eq (v : Value) :
    v.integer? = if v.bits.toNat % 2 = 1 then some (v.bits.toInt64.toInt / 2) else none := by
  unfold integer? fixnum?
  by_cases tagged : v.bits.toNat % 2 = 1
  · rw [if_pos (v.isFixnum_iff.mpr tagged), if_pos tagged, Option.map_some, toInt_shiftRight_one]
  · rw [if_neg (fun h => tagged (v.isFixnum_iff.mp h)), if_neg tagged, Option.map_none]

theorem toNat_fixnum (n : Int64) :
    (fixnum n).bits.toNat = 2 * (n.toUInt64.toNat % 2 ^ 63) + 1 := by
  have shifted : (n.toUInt64 <<< 1).toNat = 2 ^ 1 * (n.toUInt64.toNat % 2 ^ 63) := by
    rw [UInt64.toNat_shiftLeft]
    show n.toUInt64.toNat <<< 1 % 2 ^ 64 = _
    rw [Nat.shiftLeft_eq]
    omega
  rw [fixnum, UInt64.toNat_or, shifted]
  exact (Nat.two_pow_add_eq_or_of_lt (by decide) _).symm

/-- A word with its top bit set is a negative number. -/
theorem toInt_toInt64 (w : Word) :
    w.toInt64.toInt = if w.toNat < 2 ^ 63 then (w.toNat : Int) else w.toNat - 2 ^ 64 := by
  have bound := w.toNat_lt
  have signed : w.toInt64.toInt = (w.toNat : Int).bmod (2 ^ 64) :=
    (Int64.toInt_toBitVec _).symm.trans (BitVec.toInt_eq_toNat_bmod _)
  rw [signed, Int.bmod_def]
  split <;> split <;> omega

theorem fixnum_wraps (n : Int64) : (fixnum n).Wraps n.toInt := by
  have bits := toNat_fixnum n
  have bound := n.toUInt64.toNat_lt
  have signed : n.toInt = _ := toInt_toInt64 n.toUInt64
  have held := toInt_toInt64 (fixnum n).bits
  refine ⟨(fixnum n).bits.toInt64.toInt / 2, ?_, ?_⟩
  · rw [integer?_eq, if_pos (by omega)]
  · rw [held, signed]
    split <;> split <;> omega

/-- Numbers that are the same modulo `2 ^ 63` are put into the same word. -/
theorem Wraps.congr {v : Value} {j k : Int} (h : v.Wraps j) (same : j % 2 ^ 63 = k % 2 ^ 63) :
    v.Wraps k := by
  obtain ⟨r, hr, lower, upper, hj⟩ := h
  exact ⟨r, hr, lower, upper, hj.trans same⟩

/-- Words are added, subtracted and multiplied modulo `2 ^ 64`, so modulo `2 ^ 63` as well. -/
theorem fixnum_wraps_of_bmod {n : Int64} {k : Int} (h : n.toInt = k.bmod (2 ^ 64)) :
    (fixnum n).Wraps k := by
  apply (fixnum_wraps n).congr
  rw [h, Int.bmod_def]
  split <;> omega

end Value

namespace Selector

/-- The selectors of sums, differences and products. -/
def arithmetic : List (Word × (Int → Int → Int)) :=
  [(plus, (· + ·)), (minus, (· - ·)), (mult, (· * ·))]

def comparisons : List (Word × (Int → Int → Bool)) :=
  [(lt, (· < ·)), (le, (· ≤ ·)), (gt, (· > ·)), (ge, (· ≥ ·)), (eq, (· = ·))]

/-- The selector names a method on integers. -/
def Known (selector : Word) : Prop :=
  selector ∈ arithmetic.map Prod.fst ∨ selector ∈ comparisons.map Prod.fst

theorem onFixnums_arithmetic {s : Word × (Int → Int → Int)} (hs : s ∈ arithmetic) (a b : Int64) :
    (onFixnums s.1 a b).Wraps (s.2 a.toInt b.toInt) := by
  simp only [arithmetic, List.mem_cons, List.not_mem_nil, or_false] at hs
  rcases hs with rfl | rfl | rfl
  · exact Value.fixnum_wraps_of_bmod (Int64.toInt_add a b)
  · exact Value.fixnum_wraps_of_bmod (Int64.toInt_sub a b)
  · exact Value.fixnum_wraps_of_bmod (Int64.toInt_mul a b)

theorem onFixnums_comparisons {s : Word × (Int → Int → Bool)} (hs : s ∈ comparisons)
    (a b : Int64) : onFixnums s.1 a b = .ofBool (s.2 a.toInt b.toInt) := by
  have less (a b : Int64) : decide (a < b) = decide (a.toInt < b.toInt) :=
    decide_eq_decide.mpr Int64.lt_iff_toInt_lt
  have most (a b : Int64) : decide (a ≤ b) = decide (a.toInt ≤ b.toInt) :=
    decide_eq_decide.mpr Int64.le_iff_toInt_le
  have same : decide (a = b) = decide (a.toInt = b.toInt) :=
    decide_eq_decide.mpr Int64.toInt_inj.symm
  simp only [comparisons, List.mem_cons, List.not_mem_nil, or_false] at hs
  rcases hs with rfl | rfl | rfl | rfl | rfl
  · exact congrArg Value.ofBool (less a b)
  · exact congrArg Value.ofBool (most a b)
  · exact congrArg Value.ofBool (less b a)
  · exact congrArg Value.ofBool (most b a)
  · exact congrArg Value.ofBool same

theorem onFixnums_of_not_known {selector : Word} (unknown : ¬ Known selector) (a b : Int64) :
    onFixnums selector a b = .nil := by
  simp only [Known, arithmetic, comparisons, List.map_cons, List.map_nil, List.mem_cons,
    List.not_mem_nil, or_false, not_or] at unknown
  obtain ⟨⟨h₁, h₂, h₃⟩, h₄, h₅, h₆, h₇, h₈⟩ := unknown
  simp only [onFixnums, h₁, h₂, h₃, h₄, h₅, h₆, h₇, h₈, if_false]

theorem send_of_integers {x y : Value} {m n : Int} (hx : x.integer? = some m)
    (hy : y.integer? = some n) (selector : Word) :
    ∃ a b : Int64, a.toInt = m ∧ b.toInt = n ∧ send selector x [y] = onFixnums selector a b := by
  obtain ⟨a, ha, rfl⟩ := Option.map_eq_some_iff.mp hx
  obtain ⟨b, hb, rfl⟩ := Option.map_eq_some_iff.mp hy
  exact ⟨a, b, rfl, rfl, by rw [send, ha, hb]⟩

/-- Something is not an integer, or there is no method of that name. -/
theorem send_eq_nil {selector : Word} {receiver : Value} {args : List Value}
    (other : ∀ arg, args = [arg] →
      receiver.integer? = none ∨ arg.integer? = none ∨ ¬ Known selector) :
    send selector receiver args = .nil := by
  unfold send
  split
  next arg =>
    split
    next a b ha hb =>
      rcases other arg rfl with h | h | unknown
      · rw [Value.integer?, ha] at h
        cases h
      · rw [Value.integer?, hb] at h
        cases h
      · exact onFixnums_of_not_known unknown a b
    next => rfl
  next => rfl

end Selector

/-- What the host answers to a send, and the host after it. -/
def Host.send (h : Host) (receiver : Value) (selector : Word) (args : List Value) : Word × Host :=
  ExternTable.standard.call (ExternTable.funcallName args.length)
    (receiver.bits :: selector :: args.map Value.bits) h

/-- There are functions for sends with up to three arguments. -/
theorem ExternTable.get?_funcallName {count : Nat} (few : count ≤ 3) :
    standard.get? (funcallName count) = some ⟨funcallName count, count + 2, .funcall⟩ := by
  match count with
  | 0 | 1 | 2 | 3 => rfl

theorem Host.send_eq (h : Host) (receiver : Value) (selector : Word) {args : List Value}
    (few : args.length ≤ 3) :
    h.send receiver selector args = ((Selector.send selector receiver args).bits, h) := by
  have values : (args.map Value.bits).map Value.mk = args := by simp [Function.comp_def]
  simp only [send, ExternTable.call, ExternTable.get?_funcallName few, HostFn.call, values]

/-- A number that is made a small integer is kept modulo `2 ^ 63`. An integer that is sent a sum,
difference or product with an integer answers the result of that modulo `2 ^ 63`, however large it is,
and to a comparison how the integers compare. Whatever else is sent with up to three arguments is
answered by `nil`, and no send changes what waits on the host's side. -/
theorem funcalls_exact (h : Host) :
    (∀ n : Int64, (Value.fixnum n).Wraps n.toInt) ∧
    (∀ (x y : Value) (m n : Int), x.integer? = some m → y.integer? = some n →
      (∀ s ∈ Selector.arithmetic, ∃ v : Value, v.Wraps (s.2 m n) ∧
        h.send x s.1 [y] = (v.bits, h)) ∧
      ∀ s ∈ Selector.comparisons, h.send x s.1 [y] = ((Value.ofBool (s.2 m n)).bits, h)) ∧
    (∀ (receiver : Value) (selector : Word) (args : List Value), args.length ≤ 3 →
      (∀ arg, args = [arg] →
        receiver.integer? = none ∨ arg.integer? = none ∨ ¬ Selector.Known selector) →
      h.send receiver selector args = (Value.nil.bits, h)) := by
  have one (y : Value) : [y].length ≤ 3 := by simp
  refine ⟨Value.fixnum_wraps, fun x y m n hx hy => ⟨fun s hs => ?_, fun s hs => ?_⟩,
    fun receiver selector args few other => ?_⟩
  · obtain ⟨a, b, rfl, rfl, sent⟩ := Selector.send_of_integers hx hy s.1
    refine ⟨_, Selector.onFixnums_arithmetic hs a b, ?_⟩
    rw [h.send_eq x s.1 (one y), sent]
  · obtain ⟨a, b, rfl, rfl, sent⟩ := Selector.send_of_integers hx hy s.1
    rw [h.send_eq x s.1 (one y), sent, Selector.onFixnums_comparisons hs]
  · rw [h.send_eq receiver selector few, Selector.send_eq_nil other]

/-- The greatest and the least of the small integers. -/
def Value.greatest : Value := ⟨0x7fffffffffffffff⟩

def Value.least : Value := ⟨0x8000000000000001⟩

/-- Their product has twice as many bits as a small integer. -/
theorem extremes_sent :
    let h : Host := { pending := some .undef }
    Value.greatest.integer? = some (2 ^ 62 - 1) ∧ Value.least.integer? = some (-2 ^ 62) ∧
    (∃ v : Value, v.Wraps ((2 ^ 62 - 1) * -2 ^ 62) ∧
      h.send .greatest Selector.mult [.least] = (v.bits, h)) ∧
    h.send .greatest Selector.lt [.least] = ((Value.ofBool false).bits, h) ∧
    Value.nil.integer? = none ∧ h.send .greatest Selector.plus [.nil] = (Value.nil.bits, h) := by
  intro h
  have greatest : Value.greatest.integer? = some (2 ^ 62 - 1) := by decide
  have least : Value.least.integer? = some (-2 ^ 62) := by decide
  have none : Value.nil.integer? = none := by decide
  obtain ⟨-, integers, others⟩ := funcalls_exact h
  obtain ⟨computes, compares⟩ := integers .greatest .least _ _ greatest least
  refine ⟨greatest, least, computes (Selector.mult, (· * ·)) (by simp [Selector.arithmetic]),
    compares (Selector.lt, (· < ·)) (by simp [Selector.comparisons]), none,
    others .greatest Selector.plus [.nil] (by decide) fun arg harg => ?_⟩
  rw [List.singleton_inj.mp harg] at none
  exact .inr (.inl none)

end StackFlow
