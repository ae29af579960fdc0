import StackFlow.Instr

/-!
Instructions that lie end to end, without a gap.
-/
namespace StackFlow

namespace Code

/-- The instructions lie end to end from position `first` up to position `last`. -/
def Contiguous : Nat → List Instr → Nat → Prop
  | first, [], last => first = last
  | first, i :: is, last => i.position = first ∧ Contiguous i.next is last

namespace Contiguous

theorem first_le_last {first last : Nat} {is : List Instr} (h : Contiguous first is last) :
    first ≤ last := by
  induction is generalizing first with
  | nil => exact Nat.le_of_eq h
  | cons i is ih =>
    have := ih h.2
    have := i.position_lt_next
    have := h.1
    omega

theorem bounds {first last : Nat} {is : List Instr} (h : Contiguous first is last) {i : Instr}
    (hi : i ∈ is) : first ≤ i.position ∧ i.next ≤ last := by
  induction is generalizing first with
  | nil => cases hi
  | cons j is ih =>
    obtain ⟨hp, hrest⟩ := h
    rcases List.mem_cons.mp hi with rfl | hi
    · exact ⟨Nat.le_of_eq hp.symm, hrest.first_le_last⟩
    · have hb := ih hrest hi
      have := j.position_lt_next
      omega

theorem append_iff {first last : Nat} {is js : List Instr} :
    Contiguous first (is ++ js) last ↔
      ∃ middle, Contiguous first is middle ∧ Contiguous middle js last := by
  induction is generalizing first with
  | nil => simp [Contiguous]
  | cons i is ih =>
    simp only [List.cons_append, Contiguous, ih]
    constructor
    · rintro ⟨hp, middle, hi, hj⟩
      exact ⟨middle, ⟨hp, hi⟩, hj⟩
    · rintro ⟨middle, ⟨hp, hi⟩, hj⟩
      exact ⟨hp, middle, hi, hj⟩

/-- Two instructions at one position are the same. -/
theorem position_injective {first last : Nat} {is : List Instr} (h : Contiguous first is last)
    {i j : Instr} (hi : i ∈ is) (hj : j ∈ is) (hp : i.position = j.position) : i = j := by
  induction is generalizing first with
  | nil => cases hi
  | cons k is ih =>
    obtain ⟨-, hrest⟩ := h
    have hk := k.position_lt_next
    rcases List.mem_cons.mp hi with hik | hi' <;> rcases List.mem_cons.mp hj with hjk | hj'
    · rw [hik, hjk]
    · have := (hrest.bounds hj').1
      rw [hik] at hp
      omega
    · have := (hrest.bounds hi').1
      rw [hjk] at hp
      omega
    · exact ih hrest hi' hj'

/-- After an instruction comes another one, or the end. -/
theorem next_mem {first last : Nat} {is : List Instr} (h : Contiguous first is last) {i : Instr}
    (hi : i ∈ is) : i.next = last ∨ ∃ j ∈ is, j.position = i.next := by
  obtain ⟨before, after, rfl⟩ := List.append_of_mem hi
  obtain ⟨_, -, -, htail⟩ := append_iff.mp h
  cases after with
  | nil => exact .inl htail
  | cons j after => exact .inr ⟨j, by simp, htail.1⟩

theorem drop_lt {first last p : Nat} {is : List Instr} (h : Contiguous first is last)
    (hle : first ≤ p) (hp : p = last ∨ ∃ i ∈ is, i.position = p) :
    Contiguous p (is.dropWhile (·.position < p)) last := by
  induction is generalizing first with
  | nil =>
    rcases hp with rfl | ⟨i, hi, -⟩
    · rfl
    · cases hi
  | cons j is ih =>
    obtain ⟨rfl, hrest⟩ := h
    by_cases hlt : j.position < p
    · rw [List.dropWhile_cons_of_pos (by simpa using hlt)]
      have later : p = last ∨ ∃ i ∈ is, i.position = p := by
        rcases hp with hp | ⟨i, hi, hip⟩
        · exact .inl hp
        · rcases List.mem_cons.mp hi with rfl | hi
          · omega
          · exact .inr ⟨i, hi, hip⟩
      have hge : j.next ≤ p := by
        rcases later with hp | ⟨i, hi, hip⟩
        · rw [hp]; exact hrest.first_le_last
        · rw [← hip]; exact (hrest.bounds hi).1
      exact ih hrest hge later
    · rw [List.dropWhile_cons_of_neg (by simpa using hlt)]
      have hj : j.position = p := by omega
      exact ⟨hj, hrest⟩

theorem take_le {first last q : Nat} {is : List Instr} (h : Contiguous first is last)
    (hle : first ≤ q + 1) (hq : q + 1 = last ∨ ∃ i ∈ is, i.position = q + 1) :
    Contiguous first (is.takeWhile (·.position ≤ q)) (q + 1) := by
  induction is generalizing first with
  | nil =>
    rcases hq with rfl | ⟨i, hi, -⟩
    · exact h
    · cases hi
  | cons j is ih =>
    obtain ⟨rfl, hrest⟩ := h
    by_cases hlt : j.position ≤ q
    · rw [List.takeWhile_cons_of_pos (by simpa using hlt)]
      have later : q + 1 = last ∨ ∃ i ∈ is, i.position = q + 1 := by
        rcases hq with hq | ⟨i, hi, hip⟩
        · exact .inl hq
        · rcases List.mem_cons.mp hi with rfl | hi
          · omega
          · exact .inr ⟨i, hi, hip⟩
      have hge : j.next ≤ q + 1 := by
        rcases later with hq | ⟨i, hi, hip⟩
        · rw [hq]; exact hrest.first_le_last
        · rw [← hip]; exact (hrest.bounds hi).1
      exact ⟨rfl, ih hrest hge later⟩
    · rw [List.takeWhile_cons_of_neg (by simpa using hlt)]
      show j.position = q + 1
      omega

theorem ascending {first last : Nat} {is : List Instr}
    (h : Contiguous first is last) : is.Pairwise fun i j => i.position < j.position := by
  induction is generalizing first with
  | nil => exact .nil
  | cons i is ih =>
    refine .cons (fun j hj => ?_) (ih h.2)
    have hlt := i.position_lt_next
    have hle := (h.2.bounds hj).1
    omega

end Contiguous

end Code

end StackFlow
