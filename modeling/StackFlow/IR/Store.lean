import StackFlow.Numeral

/-!
Numbered variables that hold words and are 0 at first.
-/
namespace StackFlow.IR

structure Store where
  words : Array Word := #[]

namespace Store

def get (s : Store) (i : Nat) : Word := s.words.getD i 0

def set (s : Store) (i : Nat) (w : Word) : Store :=
  if i < s.words.size then ⟨s.words.setIfInBounds i w⟩
  else ⟨(s.words ++ Array.replicate (i - s.words.size) 0).push w⟩

theorem get_empty (i : Nat) : ({} : Store).get i = 0 := by simp [get]

theorem get_set (s : Store) (i j : Nat) (w : Word) :
    (s.set i w).get j = if j = i then w else s.get j := by
  unfold set get
  split
  next inside =>
    simp only [Array.getD_eq_getD_getElem?, Array.getElem?_setIfInBounds]
    by_cases h : i = j
    · subst h; simp [inside]
    · simp [h, Ne.symm h]
  next outside =>
    simp only [Array.getD_eq_getD_getElem?, Array.getElem?_push, Array.getElem?_append,
      Array.getElem?_replicate, Array.size_append, Array.size_replicate]
    by_cases h : j = i
    · subst h
      rw [if_pos (by omega)]; simp
    · rw [if_neg (by omega), if_neg h]
      by_cases hj : j < s.words.size
      · simp [hj]
      · rw [if_neg hj, Array.getElem?_eq_none (by omega)]
        split <;> rfl

end Store

end StackFlow.IR
