import StackFlow.IR.Preorder
import StackFlow.Proofs.IR.Paths

/-!
The blocks that the walk over a function meets are those that a path from the entry comes to
(`Func.mem_reachable`).
-/
namespace StackFlow.IR.Func

variable (f : Func)

/-- What is met lies in a set that holds what was met, what is to be met, and all that follows. -/
theorem preorderFrom_subset {seen work : List BlockId} {P : BlockId → Prop}
    (closed : ∀ b, P b → ∀ s ∈ f.successors b, P s) (hseen : ∀ b ∈ seen, P b)
    (hwork : ∀ b ∈ work, P b) : ∀ b ∈ f.preorderFrom seen work, P b := by
  fun_induction f.preorderFrom seen work with
  | case1 seen => exact fun b hb => hseen b (List.mem_reverse.mp hb)
  | case2 seen b work _ ih => exact ih hseen fun k hk => hwork k (List.mem_cons_of_mem b hk)
  | case3 seen b work _ ih =>
    have hb := hwork b List.mem_cons_self
    refine ih ?_ ?_
    · exact List.forall_mem_cons.mpr ⟨hb, hseen⟩
    · refine List.forall_mem_append.mpr ⟨closed b hb, ?_⟩
      exact fun k hk => hwork k (List.mem_cons_of_mem b hk)

/-- All that was met or is to be met is met, and so is all that follows what is met. -/
theorem preorderFrom_closed {seen work : List BlockId}
    (left : ∀ b ∈ seen, ∀ s ∈ f.successors b, s ∈ seen ∨ s ∈ work) :
    (∀ b, b ∈ seen ∨ b ∈ work → b ∈ f.preorderFrom seen work) ∧
      ∀ b ∈ f.preorderFrom seen work, ∀ s ∈ f.successors b, s ∈ f.preorderFrom seen work := by
  fun_induction f.preorderFrom seen work with
  | case1 seen => simpa using left
  | case2 seen b work hb ih =>
    have hleft : ∀ k ∈ seen, ∀ s ∈ f.successors k, s ∈ seen ∨ s ∈ work := by
      intro k hk s hs
      rcases left k hk s hs with h | h
      · exact .inl h
      · rcases List.mem_cons.mp h with rfl | h
        · exact .inl hb
        · exact .inr h
    obtain ⟨hmet, hclosed⟩ := ih hleft
    refine ⟨fun k hk => hmet k ?_, hclosed⟩
    rcases hk with hk | hk
    · exact .inl hk
    · rcases List.mem_cons.mp hk with rfl | hk
      · exact .inl hb
      · exact .inr hk
  | case3 seen b work _ ih =>
    have hleft : ∀ k ∈ b :: seen, ∀ s ∈ f.successors k,
        s ∈ b :: seen ∨ s ∈ f.successors b ++ work := by
      intro k hk s hs
      rcases List.mem_cons.mp hk with rfl | hk
      · exact .inr (List.mem_append_left _ hs)
      · rcases left k hk s hs with h | h
        · exact .inl (List.mem_cons_of_mem b h)
        · rcases List.mem_cons.mp h with rfl | h
          · exact .inl List.mem_cons_self
          · exact .inr (List.mem_append_right _ h)
    obtain ⟨hmet, hclosed⟩ := ih hleft
    refine ⟨fun k hk => hmet k ?_, hclosed⟩
    rcases hk with hk | hk
    · exact .inl (List.mem_cons_of_mem b hk)
    · rcases List.mem_cons.mp hk with rfl | hk
      · exact .inl List.mem_cons_self
      · exact .inr (List.mem_append_right _ hk)

theorem entry_mem_reachable : entry ∈ f.reachable :=
  (f.preorderFrom_closed (by simp)).1 _ (.inr (List.mem_singleton_self _))

theorem successor_mem_reachable {b s : BlockId} (hb : b ∈ f.reachable) (hs : s ∈ f.successors b) :
    s ∈ f.reachable :=
  (f.preorderFrom_closed (by simp)).2 b hb s hs

/-- What holds of the entry and passes on to successors holds of all reachable blocks. -/
theorem reachable_induction {P : BlockId → Prop} (hentry : P entry)
    (next : ∀ b, P b → ∀ s ∈ f.successors b, P s) : ∀ b ∈ f.reachable, P b :=
  f.preorderFrom_subset next (by simp) (by simpa using hentry)

/-- The reachable blocks are those that a path from the entry comes to. -/
theorem mem_reachable {b : BlockId} : b ∈ f.reachable ↔ ∃ before, f.Path (b :: before) := by
  constructor
  · refine f.reachable_induction (P := fun b => ∃ before, f.Path (b :: before)) ⟨[], .entry⟩ ?_ b
    rintro b ⟨before, path⟩ s hs
    exact ⟨b :: before, path.step hs⟩
  · have along : ∀ bs, f.Path bs → ∀ b ∈ bs.head?, b ∈ f.reachable := by
      intro bs path
      induction path with
      | entry => simpa using f.entry_mem_reachable
      | step _ next ih => simpa using f.successor_mem_reachable (ih _ rfl) next
    rintro ⟨before, path⟩
    exact along _ path b rfl

end StackFlow.IR.Func
