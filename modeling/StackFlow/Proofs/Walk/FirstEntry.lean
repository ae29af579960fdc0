import StackFlow.Proofs.Walk.BackEntry
import StackFlow.Proofs.Walk.Lookups
import StackFlow.Proofs.Walk.WellFormed

/-!
The state in which a block is first entered. An edge is followed at once after it has left its value,
so that no value waits for any block but the one that is about to be entered; and a value on the stack
with none waiting has come along a backward edge. Main statement: this holds whenever a compilation
enters a block, whether it succeeds or not, and its stacks keep to the bound of the method and hold
defined values only (`first_entry_poised`).
-/
namespace StackFlow

open IR (Reg Stmt Builder Func Numbered)

/-- The stack keeps to the bound, and holds values that the function defines. -/
structure OperandStack.Sound (s : OperandStack) (max : Nat) (f : Func) : Prop where
  bound : s.max = max
  room : s.depth ≤ max
  values : ∀ r ∈ s.regs, f.Typed .value r

/-- The block has a stack of this depth just after entry, and the stack stays sound over every part of
the block that is lowered. -/
def Compiler.OpensAt (c : Compiler) (b : BasicBlock) (s : OperandStack) (k : Builder) (depth : Nat) :
    Prop :=
  ∃ merge opened k', Compiler.join b s k = .ok (merge, opened, k') ∧ opened.depth = depth ∧
    ∀ (t : BlockTable) (is : List Instr) (s' : OperandStack) (k'' : Builder),
      is <+: (c.method.instrsIn b.start b.last).takeWhile (!·.transfers) →
      (c.lowerAll t is opened k').result = .ok (s', k'') → s'.Sound c.method.stackMax k''.func

/-- The block is about to be compiled. The edge `via` leads there, if any does, and has left its value;
`s` is the rest of its stack. -/
structure Compiler.Poised (c : Compiler) (via : Option Edge) (s : OperandStack) (w : Walk)
    (b : BasicBlock) : Prop where
  waiting : b.pending.length ≤ 1
  others : ∀ k ∈ w.table.blocks, k.start ≠ b.start → k.pending = []
  /-- Only a backward edge enters with a value and nothing that waits. -/
  live : b.pending = [] ∧ s.isEmpty = false ↔
    ∃ e ∈ via, e.dest ≤ e.source ∧ e.stack.isEmpty = false
  sound : s.Sound c.method.stackMax w.builder.func
  /-- The block has the depth that its predecessor had at the end. -/
  opens : c.OpensAt b s (w.builder.switchTo b.handle) (via.elim 0 (·.stack.depth))
  /-- A path takes the edge with this depth. -/
  path : ∀ e ∈ via, c.method.ArrivesFrom e.source e.dest e.stack.depth

namespace Edge

theorem length_joins_le (e : Edge) : e.joins.length ≤ 1 := by
  unfold joins
  split
  · exact Nat.zero_le 1
  · cases e.stack.top? <;> simp

/-- A forward edge leaves nothing on the stack that does not lie below its value. -/
theorem live_iff (e : Edge) :
    e.joins = [] ∧ e.entry.isEmpty = false ↔ e.dest ≤ e.source ∧ e.stack.isEmpty = false := by
  rcases Nat.lt_or_ge e.source e.dest with forward | backward
  · rw [e.joins_forward forward, e.entry_forward forward]
    refine iff_of_false ?_ fun h => absurd h.1 (Nat.not_le.mpr forward)
    rintro ⟨none, some⟩
    cases hs : e.stack.regs <;>
      simp [OperandStack.top?, OperandStack.dropTop, OperandStack.isEmpty, hs] at none some
  · rw [e.joins_backward backward, e.entry_backward backward]
    exact and_congr_left' (iff_of_true rfl backward)

theorem mem_entry (e : Edge) {r : Reg} (h : r ∈ e.entry.regs) : r ∈ e.stack.regs := by
  unfold entry at h
  split at h
  · exact h
  · exact List.mem_of_mem_tail h

/-- What is left of a sound stack after its value was taken is sound. -/
theorem sound_entry (e : Edge) {max : Nat} {f : Func} (h : e.stack.Sound max f) :
    e.entry.Sound max f := by
  have room : e.entry.depth ≤ e.stack.depth := by
    have := e.depth_entry
    split at this <;> omega
  exact ⟨e.entry_max.trans h.bound, Nat.le_trans room h.room, fun r hr => h.values r (e.mem_entry hr)⟩

end Edge

/-- No value waits while no edge is followed. -/
theorem Walk.Tidy.pending_eq_nil {m : Method} {w : Walk} (h : w.Tidy m) {b : BasicBlock}
    (hb : b ∈ w.table.blocks) : b.pending = [] := by
  cases hc : b.compiled with
  | true => exact (h.known b hb hc).1
  | false => exact (h.fresh b hb hc).2.1

namespace Compiler

variable {c : Compiler} {x : ExternTable} {max : Nat}

/-- The stack of a block is empty just after entry, or the phi lies on values that were there. -/
theorem regs_of_join {block : BasicBlock} {s opened : OperandStack} {b b' : Builder}
    {merge : Option Reg} (h : join block s b = .ok (merge, opened, b')) :
    opened.regs = [] ∨ ∃ below, opened.regs = b.free :: below ∧ ∀ r ∈ below, r ∈ s.regs := by
  obtain ⟨-, -, -, hregs⟩ := join_eq_ok h
  split at hregs
  · cases hs : s.regs with
    | nil => exact .inl (by simpa [OperandStack.top?, hs] using hregs)
    | cons r below =>
      refine .inr ⟨below, by simpa [OperandStack.top?, hs] using hregs, fun r hr => ?_⟩
      exact List.mem_cons_of_mem _ hr
  · exact .inr ⟨s.regs, hregs, fun r hr => hr⟩

/-- Joining leaves a sound stack, if there is room. -/
theorem sound_of_join {block : BasicBlock} {s opened : OperandStack} {b b' : Builder}
    {merge : Option Reg} (noted : b.func.Noted) (sound : s.Sound max b.func)
    (room : opened.depth ≤ max) (h : join block s b = .ok (merge, opened, b')) :
    b'.func.Noted ∧ opened.Sound max b'.func := by
  obtain ⟨-, rfl, hmax, -⟩ := join_eq_ok h
  rcases regs_of_join h with hnil | ⟨below, hregs, hbelow⟩
  · have hphis : opened.phis block.pending = [] := by
      simp [OperandStack.phis, OperandStack.top?, hnil]
    rw [hphis, Builder.append_nil]
    exact ⟨noted, hmax.trans sound.bound, room, by simp [hnil]⟩
  · have hphis : opened.phis block.pending = [.phi b.free block.pending] := by
      simp [OperandStack.phis, OperandStack.top?, hregs]
    have numbered : Numbered b.func.nextReg [.phi b.free block.pending] := rfl
    rw [hphis]
    refine ⟨noted.append numbered, hmax.trans sound.bound, room, ?_⟩
    rw [hregs]
    exact List.forall_mem_cons.mpr ⟨noted.typed_append numbered (List.mem_singleton_self _) rfl,
      fun r hr => (sound.values r (hbelow r hr)).append numbered⟩

/-- Instructions that are lowered leave a sound stack. -/
theorem sound_of_lowerAll (standard : c.lowering = .standard) {t : BlockTable} {is : List Instr}
    {s s' : OperandStack} {b b' : Builder} (noted : b.func.Noted) (sound : s.Sound max b.func)
    (h : (c.lowerAll t is s b).result = .ok (s', b')) : s'.Sound max b'.func := by
  obtain ⟨code, hlowered, hmax, rfl⟩ := straights_of_lowerAll standard h
  have numbered := hlowered.numbered
  have hbound : s'.max = max := hmax.trans sound.bound
  rw [sound.bound] at hlowered
  refine ⟨hbound, hlowered.length_le sound.room, (hlowered.typed ?_ ?_).2⟩
  · exact fun r hr => (sound.values r hr).append numbered
  · exact fun stmt hm r hr => noted.typed_append numbered hm hr

/-- A block that can be joined with a sound stack goes on with sound stacks. -/
theorem opensAt (standard : c.lowering = .standard) {b : BasicBlock} {s : OperandStack} {k : Builder}
    {depth : Nat} (noted : k.func.Noted) (sound : s.Sound c.method.stackMax k.func)
    (joins : ∃ r, join b s k = .ok r)
    (hdepth : (if b.pending = [] then s.depth else s.depth + 1) = depth)
    (room : depth ≤ c.method.stackMax) : c.OpensAt b s k depth := by
  obtain ⟨⟨merge, opened, k'⟩, hjoin⟩ := joins
  have hopened := (depth_of_join hjoin).trans hdepth
  obtain ⟨noted', sound'⟩ :=
    sound_of_join noted sound (Nat.le_trans (Nat.le_of_eq hopened) room) hjoin
  exact ⟨merge, opened, k', hjoin, hopened, fun t is s' k'' _ lowered =>
    sound_of_lowerAll standard noted' sound' lowered⟩

/-- An edge that is left to follow takes a sound stack along. -/
theorem Comes.sound (standard : c.lowering = .standard) {w : Walk} {edges : List Edge}
    (h : c.Comes x w edges) : ∀ e ∈ edges, e.stack.Sound c.method.stackMax w.builder.func := by
  obtain ⟨j, reached, rfl, rfl⟩ := h.exists_reached standard
  intro e he
  obtain ⟨hmax, hle⟩ := reached.edge_depth_le (.inr he)
  exact ⟨hmax, hle, fun r hr => reached.edge_typed (.inr he) hr⟩

theorem poised_of_prologue (standard : c.lowering = .standard) {w : Walk} {b : BasicBlock}
    (prologue : (c.prologue x).result = .ok w) (found : w.table.block? 0 = some b) :
    c.Poised none { max := c.method.stackMax } w b := by
  have blank := blank_of_prologue standard prologue
  have noted : w.builder.func.Noted := (Journal.Reached.init blank).counted.noted
  obtain ⟨hmem, -⟩ := BlockTable.of_block?_eq_some found
  obtain ⟨fresh, -, hpending, -⟩ := blank.fresh b hmem
  have sound : (⟨[], c.method.stackMax⟩ : OperandStack).Sound c.method.stackMax w.builder.func :=
    ⟨rfl, Nat.zero_le _, nofun⟩
  exact {
    waiting := by rw [hpending]; exact Nat.zero_le 1
    others := fun k hk _ => (blank.fresh k hk).2.2.1
    live := iff_of_false (fun h => nomatch h.2) (fun ⟨_, h, _⟩ => nomatch h)
    sound
    opens := opensAt standard noted sound
      ((Enters.first prologue).joins standard found fresh).2 (if_pos hpending) (Nat.zero_le _)
    path := nofun }

theorem Comes.poised (standard : c.lowering = .standard) {w w' : Walk} {e : Edge} {rest : List Edge}
    {s : OperandStack} {b : BasicBlock} (before : c.Comes x w (e :: rest))
    (arrive : (w.arrive e).result = .ok (s, w')) (found : w'.table.block? e.dest = some b)
    (fresh : b.compiled = false) : c.Poised (some e) s w' b := by
  obtain ⟨-, joins⟩ := (Enters.along before arrive).joins standard found fresh
  have hstack := before.sound standard e List.mem_cons_self
  obtain ⟨j, reached, rfl, hp⟩ := before.exists_reached standard
  have he : e ∈ j.pending := by rw [hp]; exact List.mem_cons_self
  obtain ⟨k, hk, hfresh, rfl, rfl, rfl⟩ := reached.noted_of_arrive arrive found fresh
  obtain ⟨hmem, hstart⟩ := BlockTable.of_block?_eq_some hk
  have hjoins := e.note_pending (reached.tidy.pending_eq_nil hmem)
  have hsite (l : BasicBlock) : (e.note l).start = l.start := congrArg Prod.fst (e.note_site l)
  refine ⟨?_, ?_, ?_, e.sound_entry hstack, ?_, ?_⟩
  · rw [hjoins]
    exact e.length_joins_le
  · -- the edge notes its value at the block that it leads to, and nothing was noted before
    intro l hl hne
    obtain ⟨l', hl', rfl⟩ := List.mem_map.mp hl
    rw [hsite, hstart] at hne
    split at hne
    next here => exact absurd ((hsite l').trans here) hne
    next elsewhere =>
      rw [if_neg elsewhere]
      exact reached.tidy.pending_eq_nil hl'
  · rw [hjoins, e.live_iff]
    simp
  · exact opensAt standard reached.counted.noted (e.sound_entry hstack) joins
      (by rw [hjoins]; exact e.depth_entry) hstack.room
  · intro e' he'
    cases he'
    exact reached.arrivesFrom (.inr he)

end Compiler

/-- Whenever a block is about to be entered that is not compiled yet, the block at position 0 or one
that an edge leads to, at most one value waits for it and none for any other block; it is entered with
a value and none that waits just where the edge goes backward with a value; the depth on entry is the
one that the edge leaves; and its stack, like those of all edges that are left, keeps to the bound of
the method and holds defined values. -/
theorem first_entry_poised (c : Compiler) (x : ExternTable) (standard : c.lowering = .standard) :
    (∀ w b, (c.prologue x).result = .ok w → w.table.block? 0 = some b →
      c.Poised none { max := c.method.stackMax } w b) ∧
    (∀ w e rest s w' b, c.Comes x w (e :: rest) → (w.arrive e).result = .ok (s, w') →
      w'.table.block? e.dest = some b → b.compiled = false → c.Poised (some e) s w' b) ∧
    ∀ w edges, c.Comes x w edges → ∀ e ∈ edges, e.stack.Sound c.method.stackMax w.builder.func :=
  ⟨fun _ _ prologue found => Compiler.poised_of_prologue standard prologue found,
    fun _ _ _ _ _ _ before arrive found fresh => before.poised standard arrive found fresh,
    fun _ _ comes => comes.sound standard⟩

/-- The edge back up enters its block with a value and none that waits. -/
theorem upward_poised : ∃ w e rest s w' b, upward.Comes .standard w (e :: rest) ∧
    (w.arrive e).result = .ok (s, w') ∧ w'.table.block? e.dest = some b ∧ b.compiled = false ∧
    e.dest ≤ e.source ∧ s.isEmpty = false ∧ upward.Poised (some e) s w' b := by
  have hbegin : upward.Comes .standard _ _ := .begin (by cbv) (by cbv)
  have hfollow := hbegin.follow (by cbv)
  have concrete : ∃ w e rest s w' b, upward.Comes .standard w (e :: rest) ∧
      (w.arrive e).result = .ok (s, w') ∧ w'.table.block? e.dest = some b ∧ b.compiled = false ∧
      e.dest ≤ e.source ∧ s.isEmpty = false :=
    ⟨_, _, _, _, _, _, hfollow, by cbv, by cbv, rfl, by decide, rfl⟩
  obtain ⟨w, e, rest, s, w', b, comes, arrive, found, fresh, backward, live⟩ := concrete
  have poised := (first_entry_poised upward .standard rfl).2.1 w e rest s w' b comes arrive found fresh
  exact ⟨w, e, rest, s, w', b, comes, arrive, found, fresh, backward, live, poised⟩

end StackFlow
