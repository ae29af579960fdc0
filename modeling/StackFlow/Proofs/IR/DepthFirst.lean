import Mathlib
import StackFlow.Proofs.IR.Reachable

/-!
Two ways to list the blocks that control can reach. A recursive search meets a block and then searches
from its successors, one after the other; the walk that the library runs has no recursion, but a list of
blocks to be met, in which a block may wait several times. Main statement: the walk meets the blocks in
the order of the recursive search, each once, and ends after one turn for each edge
(`reachable_isPreorder`).
-/
namespace StackFlow.IR.Func

theorem unseen_anti (f : Func) {seen met : List BlockId} (h : seen ⊆ met) : f.unseen met ≤ f.unseen seen := by
  refine List.countP_mono_left fun i _ hi => ?_
  simp only [decide_eq_true_eq] at hi ⊢
  exact fun hs => hi (h hs)

/-- A search from each of the blocks in turn: a block that was met is passed over, another one is met and
its successors are searched before the next of the blocks. Blocks are met in front of those that were met
before, and none of these is lost. -/
def search (f : Func) (seen work : List BlockId) : {met : List BlockId // seen ⊆ met} :=
  match work with
  | [] => ⟨seen, List.Subset.refl seen⟩
  | b :: work =>
    if b ∈ seen then f.search seen work
    else
      let inner := f.search (b :: seen) (f.successors b)
      let outer := f.search inner.1 work
      ⟨outer.1, fun _ hs => outer.2 (inner.2 (List.mem_cons_of_mem b hs))⟩
termination_by (f.unseen seen, work.length)
decreasing_by
  · exact Prod.Lex.right _ (by simp)
  · rename_i fresh
    by_cases inside : b.index < f.blocks.length
    · exact Prod.Lex.left _ _ (unseen_cons_lt f inside fresh)
    · refine Prod.Lex.right' _ (unseen_cons_le f seen b) ?_
      simp [successors_of_le f (Nat.le_of_not_lt inside)]
  · have hsub : seen ⊆ inner.1 := fun _ hs => inner.2 (List.mem_cons_of_mem b hs)
    exact Prod.Lex.right' _ (f.unseen_anti hsub) (by simp)

variable (f : Func)

/-- One turn of the walk: the first of the blocks to be met is passed over, or met with its successors in
front of the others. -/
def turn : List BlockId × List BlockId → List BlockId × List BlockId
  | (seen, []) => (seen, [])
  | (seen, b :: work) => if b ∈ seen then (seen, work) else (b :: seen, f.successors b ++ work)

/-- Number of edges out of the blocks. -/
def edgeCount (bs : List BlockId) : Nat := (bs.map fun b => (f.successors b).length).sum

/-- Before it goes on, the walk meets what a search from the first blocks meets. -/
theorem preorderFrom_append (seen work rest : List BlockId) :
    f.preorderFrom seen (work ++ rest) = f.preorderFrom (f.search seen work).1 rest := by
  fun_induction search f seen work generalizing rest with
  | case1 seen => rfl
  | case2 seen b work met ih =>
    rw [List.cons_append, preorderFrom, if_pos met]
    exact ih rest
  | case3 seen b work fresh inner outer ihInner ihOuter =>
    calc f.preorderFrom seen (b :: work ++ rest)
        = f.preorderFrom (b :: seen) (f.successors b ++ (work ++ rest)) := by
          rw [List.cons_append, preorderFrom, if_neg fresh]
      _ = f.preorderFrom inner.1 (work ++ rest) := ihInner _
      _ = f.preorderFrom outer.1 rest := ihOuter rest

/-- The walk lists the blocks in the order of the search. -/
theorem preorderFrom_eq_search (seen work : List BlockId) :
    f.preorderFrom seen work = (f.search seen work).1.reverse := by
  have h := f.preorderFrom_append seen work []
  rwa [List.append_nil, preorderFrom] at h

theorem preorderFrom_nodup {seen work : List BlockId} (distinct : seen.Nodup) :
    (f.preorderFrom seen work).Nodup := by
  fun_induction f.preorderFrom seen work with
  | case1 seen => exact List.nodup_reverse.mpr distinct
  | case2 seen b work _ ih => exact ih distinct
  | case3 seen b work fresh ih => exact ih (List.nodup_cons.mpr ⟨fresh, distinct⟩)

/-- The walk ends. Each block that is left to be met takes one turn, and so does each edge out of a block
that is met on the way. -/
theorem exists_iterate_turn (seen work : List BlockId) :
    ∃ n, n + f.edgeCount seen = work.length + f.edgeCount (f.preorderFrom seen work) ∧
      f.turn^[n] (seen, work) = ((f.preorderFrom seen work).reverse, []) := by
  fun_induction f.preorderFrom seen work with
  | case1 seen =>
    refine ⟨0, ?_, ?_⟩
    · simp [edgeCount, List.sum_reverse]
    · simp
  | case2 seen b work met ih =>
    obtain ⟨n, hn, hturns⟩ := ih
    refine ⟨n + 1, ?_, ?_⟩
    · rw [List.length_cons]
      omega
    · rw [Function.iterate_succ_apply, turn, if_pos met, hturns]
  | case3 seen b work fresh ih =>
    obtain ⟨n, hn, hturns⟩ := ih
    refine ⟨n + 1, ?_, ?_⟩
    · have hcount : f.edgeCount (b :: seen) = (f.successors b).length + f.edgeCount seen := rfl
      rw [hcount, List.length_append] at hn
      rw [List.length_cons]
      omega
    · rw [Function.iterate_succ_apply, turn, if_neg fresh, hturns]

/-- The targets of all terminators are blocks of the function. -/
def TargetsExist : Prop :=
  ∀ k ∈ f.blocks, ∀ s ∈ k.terminator.successors, s.index < f.blocks.length

instance : Decidable f.TargetsExist :=
  inferInstanceAs (Decidable (∀ k ∈ f.blocks, ∀ s ∈ k.terminator.successors, _))

theorem TargetsExist.successor_lt {f : Func} (h : f.TargetsExist) {b s : BlockId}
    (hs : s ∈ f.successors b) : s.index < f.blocks.length := by
  by_cases inside : b.index < f.blocks.length
  · refine h (f.block b) ?_ s hs
    rw [block, List.getD_eq_getElem _ _ inside]
    exact List.getElem_mem inside
  · rw [f.successors_of_le (Nat.le_of_not_lt inside)] at hs
    cases hs

/-- The list holds the blocks that control can reach from `start`, each once, in the order in which the
recursive search meets them, and the walk comes to its end with it. -/
structure IsPreorder (start : BlockId) (met : List BlockId) : Prop where
  eq_search : met = (f.search [] [start]).1.reverse
  nodup : met.Nodup
  mem_iff : ∀ b, b ∈ met ↔ Relation.ReflTransGen (fun b s => s ∈ f.successors b) start b
  /-- The walk looks up no block that the function does not have. -/
  inside : ∀ b ∈ met, b.index < f.blocks.length
  ends : f.turn^[1 + f.edgeCount met] ([], [start]) = (met.reverse, [])

/-- A block is met just if edges lead to it. -/
theorem mem_preorderFrom_iff (start b : BlockId) :
    b ∈ f.preorderFrom [] [start] ↔
      Relation.ReflTransGen (fun b s => s ∈ f.successors b) start b := by
  have hclosed := f.preorderFrom_closed (show ∀ b ∈ [], ∀ s ∈ f.successors b,
    s ∈ [] ∨ s ∈ [start] by simp)
  constructor
  · refine f.preorderFrom_subset (fun k hk s hs => hk.tail hs) (by simp) ?_ b
    simpa using Relation.ReflTransGen.refl
  · intro path
    induction path with
    | refl => exact hclosed.1 start (.inr (List.mem_singleton_self start))
    | tail _ next ih => exact hclosed.2 _ ih _ next

/-- Whatever cycles the blocks form, and however often a block is among the successors of another, the
walk meets the blocks that it can reach in the order of the recursive search, each once. So it is from
every block of the function, and from the entry the list is that of the reachable blocks. -/
theorem reachable_isPreorder (f : Func) (targets : f.TargetsExist) :
    (∀ start : BlockId, start.index < f.blocks.length →
      f.IsPreorder start (f.preorderFrom [] [start])) ∧
    (0 < f.blocks.length → f.IsPreorder entry f.reachable) := by
  have preorder (start : BlockId) (hstart : start.index < f.blocks.length) :
      f.IsPreorder start (f.preorderFrom [] [start]) := by
    refine ⟨f.preorderFrom_eq_search _ _, f.preorderFrom_nodup List.nodup_nil,
      f.mem_preorderFrom_iff start, ?_, ?_⟩
    · exact f.preorderFrom_subset (fun b _ s hs => targets.successor_lt hs) (by simp)
        (by simpa using hstart)
    · obtain ⟨n, hn, hturns⟩ := f.exists_iterate_turn [] [start]
      obtain rfl : n = 1 + f.edgeCount (f.preorderFrom [] [start]) := hn
      exact hturns
  exact ⟨preorder, preorder entry⟩

/-- Blocks with two cycles, an edge from a block to itself, two edges from one block to another and a
block that nothing leads to. -/
def tangled : Func where
  name := "tangled"
  params := 0
  locals := 0
  blocks := [{ terminator := .branch ⟨0⟩ ⟨2⟩ ⟨1⟩ }, { terminator := .jump ⟨1⟩ },
    { terminator := .switch ⟨1⟩ [(3, ⟨4⟩), (5, ⟨2⟩), (7, ⟨4⟩)] ⟨0⟩ }, { terminator := .jump ⟨0⟩ },
    { terminator := .jump ⟨2⟩ }]

theorem tangled_isPreorder : tangled.TargetsExist ∧ tangled.reachable = [⟨0⟩, ⟨2⟩, ⟨4⟩, ⟨1⟩] ∧
    tangled.IsPreorder entry tangled.reachable := by
  have targets : tangled.TargetsExist := by decide
  exact ⟨targets, by cbv, (reachable_isPreorder tangled targets).2 (by decide)⟩

end StackFlow.IR.Func
