import StackFlow.IR.Func

/-!
The blocks that control can reach, in the order of a depth-first walk that meets a block before what
follows it and takes the successors in edge order.
-/
namespace StackFlow.IR.Func

/-- Number of blocks that are not in `seen`. -/
def unseen (f : Func) (seen : List BlockId) : Nat :=
  (List.range f.blocks.length).countP fun i => ⟨i⟩ ∉ seen

theorem unseen_cons_le (f : Func) (seen : List BlockId) (b : BlockId) :
    f.unseen (b :: seen) ≤ f.unseen seen := by
  refine List.countP_mono_left fun i _ h => ?_
  simp only [List.mem_cons, not_or, decide_eq_true_eq] at h ⊢
  exact h.2

theorem unseen_cons_lt (f : Func) {seen : List BlockId} {b : BlockId}
    (inside : b.index < f.blocks.length) (fresh : b ∉ seen) :
    f.unseen (b :: seen) < f.unseen seen := by
  have key : ∀ l : List Nat, b.index ∈ l →
      (l.countP fun i => ⟨i⟩ ∉ b :: seen) < l.countP fun i => ⟨i⟩ ∉ seen := by
    intro l
    induction l with
    | nil => simp
    | cons i l ih =>
      intro hm
      have mono : (l.countP fun i => ⟨i⟩ ∉ b :: seen) ≤ l.countP fun i => ⟨i⟩ ∉ seen := by
        refine List.countP_mono_left fun i _ h => ?_
        simp only [List.mem_cons, not_or, decide_eq_true_eq] at h ⊢
        exact h.2
      by_cases hi : i = b.index
      · subst hi
        have h2 : decide ((⟨b.index⟩ : BlockId) ∉ seen) = true := by simpa using fresh
        rw [List.countP_cons_of_neg (by simp), List.countP_cons_of_pos (by simp [h2])]
        omega
      · have hl : b.index ∈ l := by
          rcases List.mem_cons.1 hm with h | h
          · exact absurd h.symm hi
          · exact h
        have step := ih hl
        have same : decide ((⟨i⟩ : BlockId) ∉ b :: seen) = decide ((⟨i⟩ : BlockId) ∉ seen) := by
          have hne : (⟨i⟩ : BlockId) ≠ b := fun h => hi (by rw [← h])
          simp [hne]
        rw [List.countP_cons, List.countP_cons, same]
        omega
  exact key _ (List.mem_range.2 inside)

theorem successors_of_le (f : Func) {b : BlockId} (outside : f.blocks.length ≤ b.index) :
    f.successors b = [] := by
  simp [successors, block, List.getD_eq_getElem?_getD, List.getElem?_eq_none outside,
    Terminator.successors]

/-- Goes on from `work`, whose blocks are met next, after the blocks in `seen`, the last one first. -/
def preorderFrom (f : Func) (seen : List BlockId) (work : List BlockId) : List BlockId :=
  match work with
  | [] => seen.reverse
  | b :: work =>
    if b ∈ seen then f.preorderFrom seen work
    else f.preorderFrom (b :: seen) (f.successors b ++ work)
termination_by (f.unseen seen, work.length)
decreasing_by
  · exact Prod.Lex.right _ (by simp)
  · rename_i fresh
    by_cases inside : b.index < f.blocks.length
    · exact Prod.Lex.left _ _ (unseen_cons_lt f inside fresh)
    · refine Prod.Lex.right' _ (unseen_cons_le f seen b) ?_
      simp [successors_of_le f (Nat.le_of_not_lt inside)]

/-- Blocks that control can reach from the entry. -/
def reachable (f : Func) : List BlockId := f.preorderFrom [] [entry]

end StackFlow.IR.Func
