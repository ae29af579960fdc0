import Mathlib
import StackFlow.Proofs.Host.Fixnum

/-!
Texts that can be read back: lists of texts with a separator between two of them, numbers, and values.
Main statement: no two values have the same text (`Value.text_injective`).
-/
namespace StackFlow

/-- No blank and no end of a line is in the text. -/
def Unbroken (s : String) : Prop := ' ' ∉ s.toList ∧ '\n' ∉ s.toList

/-- The parts are found again at the separators. -/
theorem eq_of_intercalate_eq {c : Char} {ss ts : List String} (hss : ss ≠ []) (hts : ts ≠ [])
    (hs : ∀ s ∈ ss, c ∉ s.toList) (ht : ∀ t ∈ ts, c ∉ t.toList)
    (h : (String.singleton c).intercalate ss = (String.singleton c).intercalate ts) : ss = ts := by
  have parts {us : List String} (hne : us ≠ []) (hu : ∀ u ∈ us, c ∉ u.toList) :
      (((String.singleton c).intercalate us).split c).toList.map (·.copy) = us :=
    (String.toList_split_intercalate hu).trans (if_neg hne)
  rw [← parts hss hs, h, parts hts ht]

/-- What is in none of the parts is not in the whole, unless it is the separator. -/
theorem notMem_intercalate {c sep : Char} (hc : c ≠ sep) {ss : List String}
    (h : ∀ s ∈ ss, c ∉ s.toList) : c ∉ ((String.singleton sep).intercalate ss).toList := by
  induction ss with
  | nil => simp
  | cons s ss ih =>
    obtain ⟨here, later⟩ := List.forall_mem_cons.mp h
    cases ss with
    | nil => simpa using here
    | cons t ts =>
      rw [String.intercalate_cons_cons, String.toList_append, String.toList_append,
        String.toList_singleton, List.mem_append, List.mem_append, List.mem_singleton]
      rintro ((first | between) | rest)
      · exact here first
      · exact hc between
      · exact ih later rest

/-- Lines are parts between the ends of lines, the last one empty. -/
theorem join_lines (ss : List String) :
    String.join (ss.map (· ++ "\n")) = (String.singleton '\n').intercalate (ss ++ [""]) := by
  induction ss with
  | nil => rfl
  | cons s ss ih =>
    rw [List.map_cons, String.join_cons, ih, List.cons_append,
      String.intercalate_cons_of_ne_nil (by simp)]
    rfl

namespace Numeral

theorem exists_digitChar {b n : Nat} (hb : 1 < b) {c : Char} (hc : c ∈ Nat.toDigits b n) :
    ∃ d < b, c = Nat.digitChar d := by
  induction n using Nat.strongRecOn with
  | ind n ih =>
    rw [Nat.toDigits_eq_if hb] at hc
    split at hc
    next small => exact ⟨n, small, List.mem_singleton.mp hc⟩
    next large =>
      have shorter : n / b < n := Nat.div_lt_self (by omega) hb
      rcases List.mem_append.mp hc with front | last
      · exact ih _ shorter front
      · exact ⟨n % b, Nat.mod_lt n (by omega), List.mem_singleton.mp last⟩

theorem digitChar_injective : ∀ d < 16, ∀ e < 16, Nat.digitChar d = Nat.digitChar e → d = e := by
  decide

/-- Hexadecimal digits tell which number they stand for. -/
theorem toDigits_injective {m n : Nat} (h : Nat.toDigits 16 m = Nat.toDigits 16 n) : m = n := by
  induction m using Nat.strongRecOn generalizing n with
  | ind m ih =>
    have single (k : Nat) : (Nat.toDigits 16 k).length ≤ 1 ↔ k < 16 :=
      Nat.length_toDigits_le_iff (by decide) (by decide)
    have small : m < 16 ↔ n < 16 := by rw [← single, ← single, h]
    by_cases hm : m < 16
    · have hn := small.mp hm
      rw [Nat.toDigits_of_lt_base hm, Nat.toDigits_of_lt_base hn] at h
      exact digitChar_injective m hm n hn (List.singleton_inj.mp h)
    · have hn := mt small.mpr hm
      rw [Nat.toDigits_of_base_le (by decide) (Nat.le_of_not_lt hm),
        Nat.toDigits_of_base_le (by decide) (Nat.le_of_not_lt hn)] at h
      obtain ⟨front, last⟩ := List.append_inj' h rfl
      have quotient := ih (m / 16) (by omega) front
      have remainder := digitChar_injective (m % 16) (by omega) (n % 16) (by omega)
        (List.singleton_inj.mp last)
      omega

theorem hex_injective {v w : Word} (h : hex v = hex w) : v = w := by
  have digits := String.ofList_inj.mp ((String.append_right_inj _).mp h)
  exact UInt64.toNat_inj.mp (toDigits_injective digits)

/-- A number is written in digits. -/
theorem notMem_toString {c : Char} (other : c.isDigit = false) (n : Nat) :
    c ∉ (toString n).toList := by
  intro h
  rw [Nat.toString_eq_ofList_toDigits, String.toList_ofList] at h
  have digit := Nat.isDigit_of_mem_toDigits (by decide) (by decide) h
  rw [other] at digit
  cases digit

theorem notMem_toString_int {c : Char} (other : c.isDigit = false) (hc : c ≠ '-') (k : Int) :
    c ∉ (toString k).toList := by
  intro h
  rw [Int.toString_eq_repr, Int.repr_eq_if] at h
  split at h
  · exact notMem_toString other _ h
  · rw [String.toList_append, List.mem_append] at h
    rcases h with sign | digit
    · exact hc (List.mem_singleton.mp sign)
    · exact notMem_toString other _ digit

theorem unbroken_toString (n : Nat) : Unbroken (toString n) :=
  ⟨notMem_toString rfl n, notMem_toString rfl n⟩

theorem unbroken_toString_int (k : Int) : Unbroken (toString k) :=
  ⟨notMem_toString_int rfl (by decide) k, notMem_toString_int rfl (by decide) k⟩

theorem unbroken_hex (w : Word) : Unbroken (hex w) := by
  constructor
  all_goals
    intro h
    rw [hex, String.toList_append, List.mem_append] at h
    rcases h with mark | digit
    · revert mark
      decide
    · rw [String.toList_ofList] at digit
      obtain ⟨d, -, hd⟩ := exists_digitChar (b := 16) (by decide) digit
      exact Nat.digitChar_ne _ (by decide) hd.symm

end Numeral

namespace Value

/-- The constants and what they are written as. -/
def constants : List (Value × String) :=
  [(Value.false, "false"), (nil, "nil"), (Value.true, "true"), (undef, "undef")]

/-- Each value is written in one of three ways. -/
inductive Reads (v : Value) : String → Prop
  | constant {s : String} (known : (v, s) ∈ constants) : Reads v s
  | integer {k : Int} (held : v.integer? = some k) : Reads v (toString k)
  | other : Reads v ("#<" ++ Numeral.hex v.bits ++ ">")

theorem reads_text (v : Value) : Reads v v.text := by
  unfold text
  split_ifs with isFalse isNil isTrue isUndef
  · exact .constant (by simp [isFalse, constants])
  · exact .constant (by simp [isNil, constants])
  · exact .constant (by simp [isTrue, constants])
  · exact .constant (by simp [isUndef, constants])
  · cases held : v.fixnum? with
    | some n => exact .integer (by rw [integer?, held, Option.map_some])
    | none => exact .other

/-- A tagged word is known by its integer. -/
theorem eq_of_integer? {v w : Value} {k : Int} (hv : v.integer? = some k)
    (hw : w.integer? = some k) : v = w := by
  rw [integer?_eq] at hv hw
  split at hv
  next tagged =>
    split at hw
    next tagged' =>
      have half := (Option.some.inj hv).trans (Option.some.inj hw).symm
      rw [toInt_toInt64, toInt_toInt64] at half
      have := v.bits.toNat_lt
      have := w.bits.toNat_lt
      have bits : v.bits.toNat = w.bits.toNat := by split at half <;> split at half <;> omega
      exact congrArg mk (UInt64.toNat_inj.mp bits)
    · cases hw
  · cases hv

/-- What is written in two ways differs: only the last one has a mark, and a constant has letters. -/
theorem Reads.eq {v w : Value} {s t : String} (hv : Reads v s) (hw : Reads w t) (h : s = t) :
    v = w := by
  have named : ∀ p ∈ constants, ∀ k : Int, p.2 ≠ toString k := by
    have letters : ∀ p ∈ constants, ∃ c ∈ p.2.toList, c.isDigit = false ∧ c ≠ '-' := by
      simp [constants]
    intro p hp k same
    obtain ⟨c, hc, other, hne⟩ := letters p hp
    exact Numeral.notMem_toString_int other hne k (same ▸ hc)
  have marked (x : Value) : '#' ∈ ("#<" ++ Numeral.hex x.bits ++ ">").toList := by
    simp [String.toList_append]
  have unmarked : ∀ p ∈ constants, '#' ∉ p.2.toList := by decide
  have unmarkedInt (k : Int) := Numeral.notMem_toString_int (c := '#') rfl (by decide) k
  cases hv with
  | constant known =>
    cases hw with
    | constant known' =>
      have distinct : ∀ p ∈ constants, ∀ q ∈ constants, p.2 = q.2 → p.1 = q.1 := by decide
      exact distinct _ known _ known' h
    | integer => exact absurd h (named _ known _)
    | other => exact absurd (h ▸ marked w) (unmarked _ known)
  | integer held =>
    cases hw with
    | constant known' => exact absurd h.symm (named _ known' _)
    | integer held' =>
      rw [Int.toString_eq_repr, Int.toString_eq_repr] at h
      obtain rfl := Int.repr_injective h
      exact eq_of_integer? held held'
    | other => exact absurd (h ▸ marked w) (unmarkedInt _)
  | other =>
    cases hw with
    | constant known' => exact absurd (h ▸ marked v) (unmarked _ known')
    | integer => exact absurd (h ▸ marked v) (unmarkedInt _)
    | other =>
      have digits := (String.append_right_inj _).mp ((String.append_left_inj _).mp h)
      exact congrArg mk (Numeral.hex_injective digits)

theorem text_injective : Function.Injective text :=
  fun v w h => v.reads_text.eq w.reads_text h

theorem unbroken_text (v : Value) : Unbroken v.text := by
  have constant : ∀ p ∈ constants, ' ' ∉ p.2.toList ∧ '\n' ∉ p.2.toList := by decide
  have view := v.reads_text
  generalize v.text = s at view ⊢
  cases view with
  | constant known => exact constant _ known
  | integer held => exact Numeral.unbroken_toString_int _
  | other =>
    obtain ⟨blank, line⟩ := Numeral.unbroken_hex v.bits
    simp [Unbroken, String.toList_append, blank, line]

end Value
end StackFlow
