import Mathlib.Data.List.Nodup
import Mathlib.Data.List.TakeWhile
import StackFlow.Compile.BlockTable
import StackFlow.Proofs.Code.Verified

/-!
The basic blocks of a method divide its instructions: each block starts at an instruction and ends
where the next one starts, or at the end of the code.
-/
namespace StackFlow

open IR (BlockId Builder Func)

namespace Method

theorem holds_of_startsBlock {m : Method} {p : Nat} (h : m.startsBlock p = true)
    (hlt : p < m.length) : m.Holds p := by
  unfold startsBlock at h
  rw [Bool.or_eq_true, beq_iff_eq, List.any_eq_true] at h
  rcases h with rfl | ⟨i, hi, h⟩
  · exact m.holds_zero
  · rw [Bool.or_eq_true, Bool.and_eq_true, beq_iff_eq, List.contains_iff_mem] at h
    rcases h with ht | ⟨-, rfl⟩
    · simpa using (holds_target hi ht).2
    · exact holds_next hi hlt

theorem mem_blockStarts {m : Method} {p : Nat} :
    p ∈ m.blockStarts ↔ p < m.length ∧ m.startsBlock p = true := by
  simp [blockStarts]

theorem mem_of_mem_instrsIn {m : Method} {first last : Nat} {i : Instr}
    (hi : i ∈ m.instrsIn first last) : i ∈ m.instrs :=
  (List.dropWhile_suffix _).subset ((List.takeWhile_prefix _).subset hi)

/-- All instructions whose first words lie in a range are found there. -/
theorem mem_instrsIn {m : Method} {first last : Nat} {i : Instr} (hi : i ∈ m.instrs)
    (after : first ≤ i.position) (upTo : i.position ≤ last) : i ∈ m.instrsIn first last := by
  have hsplit := List.takeWhile_append_dropWhile (p := fun k : Instr => decide (k.position < first))
    (l := m.instrs)
  have hrest : i ∈ m.instrs.dropWhile (·.position < first) := by
    rw [← hsplit] at hi
    refine (List.mem_append.mp hi).resolve_left fun hbefore => ?_
    have := List.mem_takeWhile_imp hbefore
    simp only [decide_eq_true_eq] at this
    omega
  have hcontiguous := m.contiguous
  rw [← hsplit] at hcontiguous
  obtain ⟨q, -, hspans⟩ := Code.Contiguous.append_iff.mp hcontiguous
  unfold instrsIn
  generalize m.instrs.dropWhile (·.position < first) = is at hrest hspans
  have hcut := List.takeWhile_append_dropWhile (p := fun k : Instr => decide (k.position ≤ last))
    (l := is)
  rw [← hcut] at hrest hspans
  refine (List.mem_append.mp hrest).resolve_right fun hlater => ?_
  -- the first instruction that is left out lies beyond the range
  obtain ⟨q', -, hbeyond⟩ := Code.Contiguous.append_iff.mp hspans
  have hle := (hbeyond.bounds hlater).1
  obtain ⟨k, more, hk⟩ := List.exists_cons_of_ne_nil (List.ne_nil_of_mem hlater)
  have hout : ¬ k.position ≤ last := by
    have := List.head_dropWhile_not (fun k : Instr => decide (k.position ≤ last))
      (List.ne_nil_of_mem hlater)
    simpa [hk] using this
  rw [hk] at hbeyond
  have : k.position = q' := hbeyond.1
  omega

theorem blockStarts_ascending (m : Method) : m.blockStarts.Pairwise (· < ·) :=
  List.Pairwise.filter _ List.pairwise_lt_range

end Method

namespace Instr

/-- The first transfer of a list of instructions is what its straight part stops at. -/
theorem split_at_transfer (is : List Instr) :
    (∃ i control after, is = is.takeWhile (!·.transfers) ++ i :: after ∧
        i.opcode.control = some control ∧
        is.findSome? (fun i => i.opcode.control.map (i, ·)) = some (i, control)) ∨
      is.takeWhile (!·.transfers) = is ∧
        is.findSome? (fun i => i.opcode.control.map (i, ·)) = none := by
  induction is with
  | nil => exact .inr ⟨rfl, rfl⟩
  | cons i is ih =>
    cases hc : i.opcode.control with
    | some control =>
      left
      exact ⟨i, control, is, by simp [transfers, hc], hc, by simp [hc]⟩
    | none =>
      have hpos : (!i.transfers) = true := by simp [transfers, hc]
      rw [List.takeWhile_cons_of_pos (p := fun i : Instr => !i.transfers) hpos,
        List.findSome?_cons, hc]
      rcases ih with ⟨j, control, after, hs, hj, hf⟩ | ⟨hs, hf⟩
      · left
        refine ⟨j, control, after, ?_, hj, hf⟩
        rw [List.cons_append, ← hs]
      · right
        exact ⟨by rw [hs], hf⟩

end Instr

namespace BlockTable

/-- Each block ends before the next one, the last one at the end of the code. -/
def Abut (length : Nat) : List BasicBlock → Prop
  | [] => True
  | b :: bs => b.last = (bs.head?.map (·.start)).getD length - 1 ∧ Abut length bs

theorem allot_cons (length start : Nat) (rest : List Nat) (b : Builder) :
    allot length (start :: rest) b =
      ({ start, last := rest.head?.getD length - 1, handle := b.newBlock.1 } ::
        (allot length rest b.newBlock.2).1, (allot length rest b.newBlock.2).2) := rfl

/-- A table with nothing noted yet: the blocks of the starts, with consecutive handles. -/
theorem allot_spec (length : Nat) (starts : List Nat) (b : Builder) :
    let blocks := (allot length starts b).1
    let b' := (allot length starts b).2
    blocks.map (·.start) = starts ∧ Abut length blocks ∧
      blocks.map (·.handle) = (List.range' b.func.blocks.length starts.length).map BlockId.mk ∧
      (∀ k ∈ blocks, k.merge = none ∧ k.pending = [] ∧ k.compiled = false ∧ k.carries = none) ∧
      b' = { b with func := { b.func with
        blocks := b.func.blocks ++ List.replicate starts.length {} } } := by
  induction starts generalizing b with
  | nil => simp [allot, Abut]
  | cons s rest ih =>
    obtain ⟨hs, ha, hh, hf, hb⟩ := ih b.newBlock.2
    have hhead : ((allot length rest b.newBlock.2).1.head?.map (·.start)) = rest.head? := by
      rw [← List.head?_map, hs]
    rw [allot_cons]
    refine ⟨?_, ⟨?_, ha⟩, ?_, ?_, ?_⟩
    · rw [List.map_cons, hs]
    · rw [hhead]
    · rw [List.map_cons, hh]
      simp [Builder.newBlock, List.range'_succ]
    · intro k hk
      rcases List.mem_cons.mp hk with rfl | hk
      · exact ⟨rfl, rfl, rfl, rfl⟩
      · exact hf k hk
    · rw [hb]
      simp [Builder.newBlock, List.replicate_succ]

theorem Abut.last_eq {length : Nat} {before after : List BasicBlock} {b : BasicBlock}
    (h : Abut length (before ++ b :: after)) :
    b.last = (after.head?.map (·.start)).getD length - 1 := by
  induction before with
  | nil => exact h.1
  | cons c before ih => exact ih h.2

/-- Where the blocks lie and which register code they have; this never changes. -/
def sites (t : BlockTable) : List (Nat × Nat × BlockId) :=
  t.blocks.map fun b => (b.start, b.last, b.handle)

theorem starts_eq_sites (t : BlockTable) : t.starts = t.sites.map Prod.fst := by
  simp [starts, sites, Function.comp_def]

theorem sites_modify (t : BlockTable) (start : Nat) {f : BasicBlock → BasicBlock}
    (keep : ∀ b, ((f b).start, (f b).last, (f b).handle) = (b.start, b.last, b.handle)) :
    (t.modify start f).sites = t.sites := by
  simp only [sites, modify, List.map_map]
  apply List.map_congr_left
  intro b _
  simp only [Function.comp_apply]
  split
  · exact keep b
  · rfl

theorem block?_eq_some_iff {t : BlockTable} (hn : t.starts.Nodup) {p : Nat} {b : BasicBlock} :
    t.block? p = some b ↔ b ∈ t.blocks ∧ b.start = p := by
  constructor
  · exact of_block?_eq_some
  · rintro ⟨hb, hp⟩
    have hfound : (t.block? p).isSome := by
      unfold block?
      rw [List.find?_isSome]
      exact ⟨b, by simpa using hb, by simpa using hp⟩
    obtain ⟨c, hc⟩ := Option.isSome_iff_exists.mp hfound
    obtain ⟨hcm, hcp⟩ := of_block?_eq_some hc
    rw [hc, List.inj_on_of_nodup_map hn hcm hb (hcp.trans hp.symm)]

theorem isSome_block?_iff {t : BlockTable} {p : Nat} : (t.block? p).isSome ↔ p ∈ t.starts := by
  simp [block?, starts, List.find?_isSome]

/-- Handle of the block at a position. -/
def handle? (t : BlockTable) (p : Nat) : Option BlockId := (t.block? p).map (·.handle)

theorem handle?_eq_sites (t : BlockTable) (p : Nat) :
    t.handle? p = (t.sites.reverse.find? (·.1 == p)).map (·.2.2) := by
  unfold handle? block? sites
  rw [← List.map_reverse]
  induction t.blocks.reverse with
  | nil => rfl
  | cons b bs ih =>
    by_cases h : b.start = p
    · simp [h]
    · simpa [h] using ih

theorem handle?_congr {t t' : BlockTable} (hs : t'.sites = t.sites) (p : Nat) :
    t'.handle? p = t.handle? p := by
  rw [handle?_eq_sites, handle?_eq_sites, hs]

theorem following?_congr {t t' : BlockTable} (hs : t'.sites = t.sites) (p : Nat) :
    t'.following? p = t.following? p := by
  have starts (u : BlockTable) : u.following? p =
      if p ∈ u.starts then (u.starts.reverse.takeWhile (· != p)).getLast? else none := by
    have htake : (u.starts.reverse.takeWhile (· != p)) =
        (u.blocks.reverse.takeWhile (·.start != p)).map (·.start) := by
      rw [BlockTable.starts, ← List.map_reverse, List.takeWhile_map]
      rfl
    unfold following?
    rw [htake, List.getLast?_map]
    split
    next h =>
      obtain ⟨b, hb⟩ := Option.isSome_iff_exists.mp (isSome_block?_iff.mpr h)
      rw [hb]
      cases (u.blocks.reverse.takeWhile (·.start != p)).getLast? <;> rfl
    next h =>
      have hnone : u.block? p = none := by
        rw [← Option.not_isSome_iff_eq_none, isSome_block?_iff]
        exact h
      rw [hnone]
      rfl
  rw [starts, starts, starts_eq_sites, starts_eq_sites, hs]

/-- The block after one of several with different starts. -/
theorem following?_of_split {t : BlockTable} (hn : t.starts.Nodup) {before after : List BasicBlock}
    {b : BasicBlock} (hs : t.blocks = before ++ b :: after) :
    t.following? b.start = after.head?.map (·.start) := by
  have hb : t.block? b.start = some b := (block?_eq_some_iff hn).mpr ⟨by simp [hs], rfl⟩
  have hne : ∀ k ∈ after.reverse, (k.start != b.start) = true := by
    intro k hk
    rw [starts, hs, List.map_append, List.map_cons, List.nodup_append] at hn
    have hnot := (List.nodup_cons.mp hn.2.1).1
    rw [bne_iff_ne]
    intro he
    exact hnot (he ▸ List.mem_map_of_mem (by simpa using hk))
  have htake : t.blocks.reverse.takeWhile (·.start != b.start) = after.reverse := by
    rw [hs, List.reverse_append, List.reverse_cons, List.append_assoc,
      List.takeWhile_append_of_pos hne]
    simp
  unfold following?
  rw [hb, htake, List.getLast?_reverse]
  cases after <;> rfl

/-- The blocks of the table lie end to end over the code of the method. -/
structure Covers (t : BlockTable) (m : Method) : Prop where
  starts_eq : t.starts = m.blockStarts
  abut : Abut m.length t.blocks

/-- The blocks of the table divide the method. -/
structure Divides (t : BlockTable) (m : Method) : Prop extends t.Covers m where
  handles : (t.blocks.map (·.handle)).Nodup
  inside : ∀ b ∈ t.blocks, b.handle ≠ Func.entry

theorem Covers.of_sites {t t' : BlockTable} {m : Method} (h : t.Covers m)
    (hs : t'.sites = t.sites) : t'.Covers m := by
  have abut : ∀ l l' : List BasicBlock,
      l'.map (fun b => (b.start, b.last, b.handle)) = l.map (fun b => (b.start, b.last, b.handle)) →
      Abut m.length l → Abut m.length l' := by
    intro l
    induction l with
    | nil => intro l' he _; rw [List.map_eq_nil_iff.mp he]; trivial
    | cons b bs ih =>
      intro l' he ha
      cases l' with
      | nil => trivial
      | cons c cs =>
        simp only [List.map_cons, List.cons.injEq, Prod.mk.injEq] at he
        obtain ⟨⟨-, hlast, -⟩, he⟩ := he
        have hstarts : cs.map (·.start) = bs.map (·.start) := by
          have := congrArg (List.map Prod.fst) he
          simpa [Function.comp_def] using this
        refine ⟨?_, ih cs he ha.2⟩
        rw [hlast, ← List.head?_map, hstarts, List.head?_map]
        exact ha.1
  refine ⟨?_, abut _ _ hs h.abut⟩
  rw [starts_eq_sites, hs, ← starts_eq_sites, h.starts_eq]

theorem Divides.of_sites {t t' : BlockTable} {m : Method} (h : t.Divides m)
    (hs : t'.sites = t.sites) : t'.Divides m := by
  have handles (u : BlockTable) : u.blocks.map (·.handle) = u.sites.map (·.2.2) := by
    simp [sites, Function.comp_def]
  refine ⟨h.toCovers.of_sites hs, ?_, ?_⟩
  · rw [handles, hs, ← handles]; exact h.handles
  · intro b hb
    have hm : b.handle ∈ t.blocks.map (·.handle) := by
      rw [handles, ← hs, ← handles]
      exact List.mem_map_of_mem hb
    obtain ⟨c, hc, he⟩ := List.mem_map.mp hm
    rw [← he]
    exact h.inside c hc

theorem covers_ofStarts (m : Method) (b : Builder) :
    (ofStarts m.blockStarts m.length b).1.Covers m := by
  obtain ⟨hs, ha, -⟩ := allot_spec m.length m.blockStarts b
  exact ⟨hs, ha⟩

/-- A new table gives each block a handle of its own. -/
theorem handles_ofStarts (starts : List Nat) (length : Nat) (b : Builder) :
    ((ofStarts starts length b).1.blocks.map (·.handle)).Nodup := by
  obtain ⟨-, -, hh, -⟩ := allot_spec length starts b
  show ((allot length starts b).1.map (·.handle)).Nodup
  rw [hh]
  exact List.Nodup.map (fun _ _ he => by simpa using he) (List.nodup_range' 1)

/-- The table that a compilation begins with divides the method. -/
theorem divides_ofStarts (m : Method) {b : Builder} (hb : 0 < b.func.blocks.length) :
    (ofStarts m.blockStarts m.length b).1.Divides m := by
  obtain ⟨-, -, hh, -, -⟩ := allot_spec m.length m.blockStarts b
  refine ⟨covers_ofStarts m b, handles_ofStarts m.blockStarts m.length b, ?_⟩
  · intro k hk he
    have hm : k.handle ∈ (allot m.length m.blockStarts b).1.map (·.handle) :=
      List.mem_map_of_mem hk
    rw [hh, he] at hm
    simp only [Func.entry, List.mem_map, List.mem_range'_1, BlockId.mk.injEq] at hm
    omega

namespace Covers

variable {t : BlockTable} {m : Method}

theorem nodup (h : t.Covers m) : t.starts.Nodup := by
  rw [h.starts_eq]
  exact m.blockStarts_ascending.imp Nat.ne_of_lt

theorem holds_start (h : t.Covers m) {b : BasicBlock} (hb : b ∈ t.blocks) : m.Holds b.start := by
  have hs : b.start ∈ m.blockStarts := by
    rw [← h.starts_eq]
    exact List.mem_map_of_mem hb
  obtain ⟨hlt, hst⟩ := Method.mem_blockStarts.mp hs
  exact Method.holds_of_startsBlock hst hlt

theorem lt_length (h : t.Covers m) {p : Nat} {target : BlockId} (hp : t.handle? p = some target) :
    p < m.length := by
  obtain ⟨b, hb, -⟩ := Option.map_eq_some_iff.mp hp
  obtain ⟨hmem, rfl⟩ := of_block?_eq_some hb
  exact (h.holds_start hmem).lt_length

/-- A block reaches up to the next one or up to the end, and is not empty. -/
theorem after (h : t.Covers m) {b : BasicBlock} (hb : b ∈ t.blocks) :
    b.start ≤ b.last ∧
      (b.last + 1 = m.length ∧ t.following? b.start = none ∨
        b.last + 1 < m.length ∧ m.Holds (b.last + 1) ∧
          t.following? b.start = some (b.last + 1)) := by
  obtain ⟨before, after, hsplit⟩ := List.append_of_mem hb
  have hlast := (hsplit ▸ h.abut : Abut m.length (before ++ b :: after)).last_eq
  have hnext := following?_of_split h.nodup hsplit
  have hlt := (h.holds_start hb).lt_length
  cases after with
  | nil =>
    simp only [List.head?_nil, Option.map_none, Option.getD_none] at hlast hnext
    exact ⟨by omega, .inl ⟨by omega, hnext⟩⟩
  | cons c after =>
    simp only [List.head?_cons, Option.map_some, Option.getD_some] at hlast hnext
    have hc : c ∈ t.blocks := by simp [hsplit]
    have hasc : b.start < c.start := by
      have hp := h.starts_eq ▸ m.blockStarts_ascending
      rw [starts, hsplit, List.map_append, List.map_cons, List.map_cons,
        List.pairwise_append] at hp
      exact (List.pairwise_cons.mp hp.2.1).1 c.start (by simp)
    have he : b.last + 1 = c.start := by omega
    refine ⟨by omega, .inr ⟨?_, ?_, ?_⟩⟩
    · rw [he]; exact (h.holds_start hc).lt_length
    · rw [he]; exact h.holds_start hc
    · rw [he, hnext]

/-- The instructions of a block fill it. -/
theorem body (h : t.Covers m) {b : BasicBlock} (hb : b ∈ t.blocks) :
    Code.Contiguous b.start (m.instrsIn b.start b.last) (b.last + 1) := by
  obtain ⟨hle, hafter⟩ := h.after hb
  obtain ⟨i, hi, hp⟩ := h.holds_start hb
  have hdrop := m.contiguous.drop_lt (Nat.zero_le _) (.inr ⟨i, hi, hp⟩)
  refine hdrop.take_le (by omega) ?_
  rcases hafter with ⟨hend, -⟩ | ⟨-, ⟨j, hj, hjp⟩, -⟩
  · exact .inl hend
  · refine .inr ⟨j, ?_, hjp⟩
    have hsplit := List.takeWhile_append_dropWhile (p := fun k : Instr => decide (k.position < b.start))
      (l := m.instrs)
    rw [← hsplit] at hj
    rcases List.mem_append.mp hj with hj | hj
    · have := List.mem_takeWhile_imp hj
      simp only [decide_eq_true_eq] at this
      omega
    · exact hj

/-- All tables that cover a method have its blocks. -/
theorem ranges_eq {t' : BlockTable} (h : t.Covers m) (h' : t'.Covers m) :
    t'.blocks.map (fun b => (b.start, b.last)) = t.blocks.map fun b => (b.start, b.last) := by
  have starts : t'.blocks.map (·.start) = t.blocks.map (·.start) := h'.starts_eq.trans h.starts_eq.symm
  have abut := h.abut
  have abut' := h'.abut
  generalize t.blocks = bs at starts abut ⊢
  generalize t'.blocks = bs' at starts abut' ⊢
  induction bs generalizing bs' with
  | nil => rw [List.map_eq_nil_iff.mp starts]
  | cons b bs ih =>
    cases bs' with
    | nil => cases starts
    | cons k bs' =>
      obtain ⟨hfirst, rest⟩ := List.cons.inj starts
      have first : k.start = b.start := hfirst
      have last : k.last = b.last := by
        rw [abut'.1, abut.1, ← List.head?_map, rest, List.head?_map]
      rw [List.map_cons, List.map_cons, first, last, ih abut.2 bs' rest abut'.2]

/-- Blocks do not overlap. -/
theorem eq_of_within (h : t.Covers m) {b k : BasicBlock} (hb : b ∈ t.blocks) (hk : k ∈ t.blocks)
    {p : Nat} (hbp : b.start ≤ p ∧ p ≤ b.last) (hkp : k.start ≤ p ∧ p ≤ k.last) : b = k := by
  have apart : ∀ {b k : BasicBlock}, b ∈ t.blocks → k ∈ t.blocks → b.start < k.start →
      b.last < k.start := by
    intro b k hb hk hlt
    obtain ⟨before, after, hsplit⟩ := List.append_of_mem hb
    have hlast := (hsplit ▸ h.abut : Abut m.length (before ++ b :: after)).last_eq
    have hp := h.starts_eq ▸ m.blockStarts_ascending
    rw [starts, hsplit, List.map_append, List.map_cons, List.pairwise_append] at hp
    rw [hsplit] at hk
    rcases List.mem_append.mp hk with hk | hk
    · have hkb : k.start < b.start :=
        hp.2.2 _ (List.mem_map_of_mem hk) b.start List.mem_cons_self
      omega
    rcases List.mem_cons.mp hk with rfl | hk
    · omega
    cases after with
    | nil => cases hk
    | cons c after =>
      simp only [List.head?_cons, Option.map_some, Option.getD_some] at hlast
      have hc : b.start < c.start := (List.pairwise_cons.mp hp.2.1).1 c.start (by simp)
      rcases List.mem_cons.mp hk with rfl | hk
      · omega
      · have hck : c.start < k.start :=
          (List.pairwise_cons.mp (List.pairwise_cons.mp hp.2.1).2).1 k.start (List.mem_map_of_mem hk)
        omega
  rcases Nat.lt_trichotomy b.start k.start with hlt | he | hlt
  · have := apart hb hk hlt
    omega
  · exact List.inj_on_of_nodup_map h.nodup hb hk he
  · have := apart hk hb hlt
    omega

end Covers

end BlockTable

end StackFlow
