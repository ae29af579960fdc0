import StackFlow.Proofs.Code.Destinations

/-!
The basic blocks of a method partition it: one after the other, their instructions are those of the
method, and control enters a block only at its first instruction and leaves it only at its last one.
-/
namespace StackFlow

open IR (Builder)

namespace Method

variable {m : Method}

/-- The instructions from a position on are those of a range and then those after it. -/
theorem instrsIn_append (m : Method) {first last : Nat} (h : first ≤ last + 1) :
    m.instrsIn first last ++ m.instrs.dropWhile (·.position < last + 1) =
      m.instrs.dropWhile (·.position < first) := by
  have later : m.instrs.dropWhile (·.position < last + 1) =
      (m.instrs.dropWhile (·.position < first)).dropWhile (·.position ≤ last) := by
    induction m.instrs with
    | nil => rfl
    | cons i is ih =>
      by_cases before : i.position < first
      · rw [List.dropWhile_cons_of_pos (by simpa using Nat.lt_of_lt_of_le before h),
          List.dropWhile_cons_of_pos (by simpa using before), ih]
      · have same : (i :: is).dropWhile (·.position < first) = i :: is :=
          List.dropWhile_cons_of_neg (by simpa using before)
        simp only [same, Nat.lt_succ_iff]
  rw [later]
  exact List.takeWhile_append_dropWhile

theorem dropWhile_zero (m : Method) : m.instrs.dropWhile (·.position < 0) = m.instrs := by
  cases m.instrs with
  | nil => rfl
  | cons i is => exact List.dropWhile_cons_of_neg (by simp)

theorem dropWhile_length (m : Method) : m.instrs.dropWhile (·.position < m.length) = [] := by
  rw [List.dropWhile_eq_nil_iff]
  intro i hi
  have := (m.contiguous.bounds hi).2
  have := i.position_lt_next
  simp only [decide_eq_true_eq]
  omega

theorem head?_blockStarts (m : Method) : m.blockStarts.head? = some 0 := by
  have zero := m.zero_mem_blockStarts
  have ascending := m.blockStarts_ascending
  cases hs : m.blockStarts with
  | nil =>
    rw [hs] at zero
    cases zero
  | cons p ps =>
    rw [hs] at zero ascending
    rcases List.mem_cons.mp zero with rfl | later
    · rfl
    · exact absurd ((List.pairwise_cons.mp ascending).1 0 later) (Nat.not_lt_zero p)

/-- A block starts at position 0, wherever an offset leads, and after each transfer inside the code. -/
theorem mem_blockStarts_iff {p : Nat} :
    p ∈ m.blockStarts ↔
      p = 0 ∨ (∃ i ∈ m.instrs, (p : Int) ∈ i.targets) ∨
        ∃ i ∈ m.instrs, i.transfers = true ∧ i.next = p ∧ p < m.length := by
  constructor
  · intro h
    obtain ⟨inside, starts⟩ := mem_blockStarts.mp h
    simp only [startsBlock, Bool.or_eq_true, beq_iff_eq, List.any_eq_true, List.contains_iff_mem,
      Bool.and_eq_true] at starts
    rcases starts with zero | ⟨i, hi, target | ⟨transfers, next⟩⟩
    · exact .inl zero
    · exact .inr (.inl ⟨i, hi, target⟩)
    · exact .inr (.inr ⟨i, hi, transfers, next, inside⟩)
  · rintro (rfl | ⟨i, hi, target⟩ | ⟨i, hi, transfers, rfl, inside⟩)
    · exact m.zero_mem_blockStarts
    · exact startsBlock_of_target hi target
    · exact startsBlock_of_transfers hi transfers inside

end Method

namespace BlockTable

/-- The blocks of the table are a partition of the method. -/
structure Partitions (t : BlockTable) (m : Method) : Prop where
  ascending : m.blockStarts.Pairwise (· < ·)
  head : m.blockStarts.head? = some 0
  mem_iff : ∀ p, p ∈ m.blockStarts ↔
    p = 0 ∨ (∃ i ∈ m.instrs, (p : Int) ∈ i.targets) ∨
      ∃ i ∈ m.instrs, i.transfers = true ∧ i.next = p ∧ p < m.length
  /-- A block starts with an instruction. -/
  holds : ∀ p ∈ m.blockStarts, m.Holds p
  starts_eq : t.starts = m.blockStarts
  start_le_last : ∀ b ∈ t.blocks, b.start ≤ b.last
  /-- A binary search for an instruction relies on this order. -/
  sorted : m.instrs.Pairwise fun i j => i.position < j.position
  /-- A block reaches up to the next one, and the last block up to the end of the code. -/
  abut : ∀ before b after, t.blocks = before ++ b :: after →
    b.last + 1 = (after.head?.map (·.start)).getD m.length
  /-- The instructions of the blocks, one block after the other, are those of the method. -/
  slices : t.blocks.flatMap (fun b => m.instrsIn b.start b.last) = m.instrs
  nonempty : ∀ b ∈ t.blocks, m.instrsIn b.start b.last ≠ []
  /-- The first instruction of a block is at its start, and the last one ends with the block. -/
  fills : ∀ b ∈ t.blocks, Code.Contiguous b.start (m.instrsIn b.start b.last) (b.last + 1)
  transfers_last : ∀ b ∈ t.blocks, ∀ before i after,
    m.instrsIn b.start b.last = before ++ i :: after → i.transfers = true → after = []
  following : ∀ b ∈ t.blocks,
    t.following? b.start = if b.last + 1 = m.length then none else some (b.last + 1)
  found : ∀ p, (t.block? p).isSome ↔ p ∈ m.blockStarts
  handles : (t.blocks.map (·.handle)).Nodup

namespace Covers

variable {t : BlockTable} {m : Method}

theorem last_succ (h : t.Covers m) {before after : List BasicBlock} {b : BasicBlock}
    (hsplit : t.blocks = before ++ b :: after) :
    b.last + 1 = (after.head?.map (·.start)).getD m.length := by
  have hafter := (h.after (b := b) (by simp [hsplit])).2
  rw [following?_of_split h.nodup hsplit] at hafter
  rcases hafter with ⟨hend, hnone⟩ | ⟨-, -, hsome⟩
  · rw [hnone, Option.getD_none, hend]
  · rw [hsome, Option.getD_some]

/-- From some block on, the blocks hold all instructions from there on. -/
theorem slices_of_split (h : t.Covers m) (before after : List BasicBlock)
    (hsplit : t.blocks = before ++ after) :
    after.flatMap (fun b => m.instrsIn b.start b.last) =
      m.instrs.dropWhile (·.position < (after.head?.map (·.start)).getD m.length) := by
  induction after generalizing before with
  | nil => exact m.dropWhile_length.symm
  | cons b after ih =>
    have hle := (h.after (b := b) (by simp [hsplit])).1
    have hmore := ih (before ++ [b]) (by simp [hsplit])
    rw [← h.last_succ hsplit] at hmore
    rw [List.flatMap_cons, hmore, m.instrsIn_append (by omega)]
    rfl

theorem slices (h : t.Covers m) :
    t.blocks.flatMap (fun b => m.instrsIn b.start b.last) = m.instrs := by
  have hhead : t.blocks.head?.map (·.start) = some 0 := by
    rw [← List.head?_map, ← m.head?_blockStarts, ← h.starts_eq]
    rfl
  have hslices := h.slices_of_split [] t.blocks rfl
  rwa [hhead, Option.getD_some, m.dropWhile_zero] at hslices

theorem instrsIn_ne_nil (h : t.Covers m) {b : BasicBlock} (hb : b ∈ t.blocks) :
    m.instrsIn b.start b.last ≠ [] := by
  obtain ⟨before, i, hbody, -⟩ := h.exists_last hb
  simp [hbody]

/-- Nothing comes after a transfer in its block. -/
theorem after_transfer (h : t.Covers m) {b : BasicBlock} (hb : b ∈ t.blocks)
    {before after : List Instr} {i : Instr}
    (hbody : m.instrsIn b.start b.last = before ++ i :: after) (transfers : i.transfers = true) :
    after = [] := by
  have hnext := h.next_of_transfers hb (by simp [hbody]) transfers
  have hspan := h.body hb
  rw [hbody] at hspan
  obtain ⟨_, -, -, hrest⟩ := Code.Contiguous.append_iff.mp hspan
  cases after with
  | nil => rfl
  | cons k after =>
    have hbounds := hrest.bounds (i := k) List.mem_cons_self
    have := k.position_lt_next
    omega

theorem following?_eq (h : t.Covers m) {b : BasicBlock} (hb : b ∈ t.blocks) :
    t.following? b.start = if b.last + 1 = m.length then none else some (b.last + 1) := by
  rcases (h.after hb).2 with ⟨hend, hnone⟩ | ⟨hlt, -, hsome⟩
  · rw [if_pos hend, hnone]
  · rw [if_neg (Nat.ne_of_lt hlt), hsome]

end Covers

/-- A new table of the basic blocks of a method partitions it. -/
theorem partitions_ofStarts (m : Method) (b : Builder) :
    (ofStarts m.blockStarts m.length b).1.Partitions m := by
  have covers := covers_ofStarts m b
  exact {
    ascending := m.blockStarts_ascending
    head := m.head?_blockStarts
    mem_iff := fun _ => Method.mem_blockStarts_iff
    holds := fun p hp =>
      Method.holds_of_startsBlock (Method.mem_blockStarts.mp hp).2 (Method.mem_blockStarts.mp hp).1
    starts_eq := covers.starts_eq
    start_le_last := fun _ hb => (covers.after hb).1
    sorted := m.contiguous.ascending
    abut := fun _ _ _ hsplit => covers.last_succ hsplit
    slices := covers.slices
    nonempty := fun _ hb => covers.instrsIn_ne_nil hb
    fills := fun _ hb => covers.body hb
    transfers_last := fun _ hb _ _ _ hbody => covers.after_transfer hb hbody
    following := fun _ hb => covers.following?_eq hb
    found := fun p => by rw [isSome_block?_iff, covers.starts_eq]
    handles := handles_ofStarts m.blockStarts m.length b }

end BlockTable

end StackFlow
