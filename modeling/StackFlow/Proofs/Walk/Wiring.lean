import StackFlow.Proofs.Walk.Final

/-!
How the blocks of the function are tied together while a compilation builds it: a block that is neither
the entry nor entered nor the trap has no end yet, and a block is noted as a predecessor just where its
end leads (`Journal.Wired`).
-/
namespace StackFlow

open IR (Reg Stmt BlockId Func Terminator)

namespace Journal

structure Wired (j : Journal) : Prop where
  idle : ∀ id, id ≠ Func.entry → (∀ v ∈ j.visits, v.handle ≠ id) → j.walk.trap ≠ some id →
    j.func.exit id = .missing
  preds : ∀ id p, p ∈ j.func.preds id ↔ id ∈ (j.func.exit p).successors
  nodup : ∀ id, (j.func.preds id).Nodup
  trap : ∀ id, j.walk.trap = some id → ∃ v ∈ j.visits, id ∈ (j.func.exit v.handle).successors

variable {c : Compiler} {x : ExternTable} {j : Journal}

theorem Wired.init {w : Walk} (blank : w.Blank c.method x) :
    Wired { walk := w, pending := [] } where
  idle id hid _ _ := blank.idle id hid
  preds id p := by
    refine (blank.preds id p).trans ?_
    by_cases hp : p = Func.entry
    · rw [hp]
      exact and_iff_right rfl
    · have hnone : Func.exit w.builder.func p = .missing := blank.idle p hp
      refine ⟨fun h => absurd h.1 hp, fun h => ?_⟩
      dsimp only [func] at h
      rw [hnone] at h
      cases h
  nodup := blank.nodup
  trap id h := by
    dsimp only at h
    rw [blank.trap] at h
    cases h

theorem Wired.pass {e : Edge} {rest : List Edge} {w : Walk} (h : Wired j)
    (passes : j.walk.Passes e w) :
    Wired { walk := w, pending := rest, passed := j.passed ++ [e], visits := j.visits } := by
  cases passes with
  | value _ _ _ _ _ grown =>
    obtain ⟨-, hexit, -⟩ := IR.Builder.addPhiSource?_eq_some grown
    obtain ⟨hpreds, -⟩ := IR.Builder.addPhiSource?_keeps grown
    refine ⟨?_, ?_, ?_, ?_⟩
    · intro id hid hnot htrap
      exact (hexit id).trans (h.idle id hid hnot htrap)
    · intro id p
      dsimp only [func]
      rw [hpreds, hexit]
      exact h.preds id p
    · intro id
      dsimp only [func]
      rw [hpreds]
      exact h.nodup id
    · intro id hid
      obtain ⟨v, hv, hs⟩ := h.trap id hid
      refine ⟨v, hv, ?_⟩
      dsimp only [func]
      rw [hexit]
      exact hs
  | _ => exact ⟨h.idle, h.preds, h.nodup, h.trap⟩

section Enter

variable {v : Visit} {rest : List Edge} {w : Walk} {code : List Stmt} {term : Terminator}

/-- The end of a block leads to blocks of the function. -/
theorem Coded.successor_lt (h : Coded c x j) (tidy : j.walk.Tidy c.method)
    (opens : j.walk.Opens c w v code term) {id : BlockId} (hid : id ∈ term.successors) :
    id.index < w.builder.func.blocks.length := by
  have htidy := opens.tidy tidy
  obtain ⟨e, -, hblock⟩ := opens.laid.exists_edge htidy.divides hid
  unfold Method.blockAt? at hblock
  split at hblock
  · obtain ⟨b, hb, rfl⟩ := Option.map_eq_some_iff.mp hblock
    exact htidy.inside b (BlockTable.of_block?_eq_some hb).1
  · exact (h.trap_enter tidy opens hblock).2.2.1

/-- A block that is entered had no end, and of all ends only its own is new. -/
theorem Wired.mem_successors (h : Wired j) (coded : Coded c x j) (linked : Linked c.method j)
    (tidy : j.walk.Tidy c.method) (opens : j.walk.Opens c w v code term) (id p : BlockId) :
    id ∈ (w.builder.func.exit p).successors ↔
      id ∈ (j.func.exit p).successors ∨ p = v.handle ∧ id ∈ term.successors := by
  obtain ⟨b, hb, -, hbh⟩ := opens.exists_block
  have hinside : v.handle.index < j.func.blocks.length := by
    rw [← hbh]
    exact tidy.inside b hb
  by_cases hp : p = v.handle
  · subst hp
    have hbefore : j.func.exit v.handle = .missing := by
      refine h.idle _ (coded.filled_of_opens linked tidy opens).1
        (fun u hu => linked.handle_ne tidy.divides opens hu) ?_
      intro htrap
      exact (coded.trap _ htrap).2.2.2 b hb hbh
    rw [opens.exit _ hinside, if_pos rfl, hbefore]
    simp [Terminator.successors]
  by_cases hlt : p.index < j.walk.builder.func.blocks.length
  · rw [opens.exit p hlt, if_neg hp]
    simp [hp, func]
  · have hbefore : j.func.exit p = .missing := Func.exit_of_le _ (Nat.le_of_not_lt hlt)
    have hafter : (w.builder.func.exit p).successors = [] := by
      by_cases htrap : w.trap = some p
      · rw [(coded.trap_enter tidy opens htrap).1]
        rfl
      · rw [opens.idle p (Nat.le_of_not_lt hlt) htrap]
        rfl
    rw [hbefore, hafter]
    simp [hp, Terminator.successors]

theorem Wired.enter (h : Wired j) (coded : Coded c x j) (linked : Linked c.method j)
    (tidy : j.walk.Tidy c.method) (opens : j.walk.Opens c w v code term) :
    Wired
      { walk := w, pending := v.edges ++ rest, passed := j.passed ++ v.via.toList
        visits := j.visits ++ [v] } := by
  have hsuccessors := h.mem_successors coded linked tidy opens
  refine ⟨?_, ?_, fun id => opens.nodup id (h.nodup id), ?_⟩
  · intro id hid hnot htrap
    have hne : id ≠ v.handle := (hnot v (List.mem_append_right _ (List.mem_singleton_self v))).symm
    by_cases hlt : id.index < j.walk.builder.func.blocks.length
    · refine (opens.exit id hlt).trans ?_
      rw [if_neg hne]
      exact h.idle id hid (fun u hu => hnot u (List.mem_append_left _ hu))
        fun hold => htrap (opens.keeps id hold)
    · exact opens.idle id (Nat.le_of_not_lt hlt) htrap
  · intro id p
    refine (opens.preds id p).trans ?_
    rw [show (func _).exit p = w.builder.func.exit p from rfl, hsuccessors]
    refine or_congr (h.preds id p) (and_congr_right fun _ => ?_)
    exact and_iff_left_of_imp (coded.successor_lt tidy opens)
  · intro id htrap
    rcases opens.named id htrap with hold | hnew
    · obtain ⟨u, hu, hs⟩ := h.trap id hold
      exact ⟨u, List.mem_append_left _ hu, (hsuccessors id u.handle).mpr (.inl hs)⟩
    · exact ⟨v, List.mem_append_right _ (List.mem_singleton_self v),
        (hsuccessors id v.handle).mpr (.inr ⟨rfl, hnew⟩)⟩

end Enter

theorem Reached.wired (h : j.Reached c x) : Wired j := by
  induction h with
  | init blank => exact .init blank
  | step before hs ih =>
    cases hs with
    | pass _ passes => exact ih.pass passes
    | enter _ opens _ => exact ih.enter before.coded before.linked before.tidy opens

end Journal

end StackFlow
