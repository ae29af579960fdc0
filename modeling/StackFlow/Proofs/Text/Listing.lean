import StackFlow.Listing
import StackFlow.Proofs.Code.Verified
import StackFlow.Proofs.Text.Written

/-!
What a listing tells of a method. The instructions are read line by line from the first position on:
the mnemonic and the number of operands say what each operand is and where the next instruction
starts, so that an offset is found again in the target that is written for it. Main statement: methods
of one name have the same listing just if they have the same code and the same frame
(`listing_exact`).
-/
namespace StackFlow

/-! ### One instruction -/

namespace Opcode

theorem ofMnemonic?_mnemonic (op : Opcode) : ofMnemonic? op.mnemonic = some op := by
  cases op <;> rfl

theorem mnemonic_injective : Function.Injective mnemonic := by
  intro op op' h
  have found := ofMnemonic?_mnemonic op
  rw [h, ofMnemonic?_mnemonic] at found
  exact (Option.some.inj found).symm

theorem unbroken_mnemonic (op : Opcode) : Unbroken op.mnemonic := by
  unfold Unbroken
  cases op <;> decide

/-- What the operands of an opcode are is known from their number. -/
theorem kinds_eq_of_length {op : Opcode} {words words' : List Word} (takes : op.Takes words)
    (takes' : op.Takes words') (length : words.length = words'.length) :
    op.kinds words = op.kinds words' := by
  cases takes with
  | fixed layout => rw [kinds_of_layout layout, kinds_of_layout layout]
  | @table cases entries layout count =>
    cases takes' with
    | fixed layout' =>
      rw [layout] at layout'
      cases layout'
    | @table cases' entries' _ count' =>
      simp only [List.length_cons, count, count'] at length
      have same : cases.toNat = cases'.toNat := by omega
      rw [kinds_of_table layout, kinds_of_table layout, same]

end Opcode

namespace Instr

variable {i i' : Instr}

/-- Each target of the instruction is small enough to be written. -/
def Writes (i : Instr) : Prop := ∀ w, .offset w ∈ i.operands → i.target w ≤ Code.maxTarget

theorem unbroken_dec4 (n : Nat) : Unbroken (Numeral.dec4 n) := by
  have digit : ∀ c ∈ (Numeral.dec4 n).toList, c.isDigit = true := by
    intro c hc
    rw [Numeral.dec4, String.toList_ofList, List.mem_append] at hc
    rcases hc with zero | digit
    · rw [List.eq_of_mem_replicate zero]
      rfl
    · exact Nat.isDigit_of_mem_toDigits (by decide) (by decide) digit
  exact ⟨fun h => (nomatch digit _ h), fun h => (nomatch digit _ h)⟩

theorem operandText_offset (i : Instr) (w : Word) :
    i.operandText (.offset w) = (signed? (i.target w)).elim "?" toString := rfl

theorem signed?_eq_some_iff {t k : Int} : signed? t = some k ↔ t ≤ Code.maxTarget ∧ t = k := by
  simp [signed?]

theorem unbroken_operandText (i : Instr) (o : Operand) : Unbroken (i.operandText o) := by
  cases o with
  | literal w => exact Numeral.unbroken_toString _
  | value v => exact v.unbroken_text
  | offset w =>
    rw [operandText_offset]
    cases signed? (i.target w) with
    | none => exact ⟨by decide, by decide⟩
    | some k => exact Numeral.unbroken_toString_int k

/-- What is written of the instruction: position, mnemonic and operands. -/
def tokens (i : Instr) : List String :=
  Numeral.dec4 i.position :: i.opcode.mnemonic :: i.operands.map i.operandText

theorem unbroken_tokens (i : Instr) : ∀ s ∈ i.tokens, Unbroken s := by
  intro s hs
  rcases List.mem_cons.mp hs with rfl | hs
  · exact unbroken_dec4 _
  rcases List.mem_cons.mp hs with rfl | hs
  · exact i.opcode.unbroken_mnemonic
  obtain ⟨o, -, rfl⟩ := List.mem_map.mp hs
  exact i.unbroken_operandText o

theorem tokens_eq_of_text_eq (h : i.text = i'.text) : i.tokens = i'.tokens := by
  refine eq_of_intercalate_eq (c := ' ') nofun nofun ?_ ?_ h
  · exact fun s hs => (i.unbroken_tokens s hs).1
  · exact fun s hs => (i'.unbroken_tokens s hs).1

/-- The text of an instruction is one line. -/
theorem newline_notMem_text (i : Instr) : '\n' ∉ i.text.toList :=
  notMem_intercalate (by decide : '\n' ≠ ' ') fun s hs => (i.unbroken_tokens s hs).2

/-- The offset is what leads from the next instruction to the target. -/
theorem target_injective (next : i.next = i'.next) {w w' : Word} (h : i.target w = i'.target w') :
    w = w' := by
  rw [target, target, next] at h
  have distance := Int64.toInt_inj.mp (Int.add_left_cancel h)
  exact congrArg Int64.toUInt64 distance

/-- An operand of a known kind is known by its text. -/
theorem eq_of_operandText_eq {o o' : Operand} (next : i.next = i'.next) (kind : o.kind = o'.kind)
    (writes : ∀ w, o = .offset w → i.target w ≤ Code.maxTarget)
    (h : i.operandText o = i'.operandText o') : o = o' := by
  cases o with
  | literal w =>
    cases o' with
    | literal w' =>
      have number := Nat.repr_injective h
      rw [UInt64.toNat_inj.mp number]
    | _ => cases kind
  | value v =>
    cases o' with
    | value v' => rw [Value.text_injective h]
    | _ => cases kind
  | offset w =>
    cases o' with
    | offset w' =>
      have shown := signed?_eq_some_iff.mpr ⟨writes w rfl, rfl⟩
      rw [operandText_offset, operandText_offset, shown, Option.elim_some] at h
      cases shown' : signed? (i'.target w') with
      | none =>
        rw [shown', Option.elim_none] at h
        have query := Numeral.notMem_toString_int (c := '?') rfl (by decide) (i.target w)
        rw [h] at query
        exact absurd (by decide) query
      | some t =>
        rw [shown', Option.elim_some, Int.toString_eq_repr, Int.toString_eq_repr] at h
        have same := (Int.repr_injective h).trans (signed?_eq_some_iff.mp shown').2.symm
        rw [target_injective next same]
    | _ => cases kind

/-- Operands of known kinds are known by their texts. -/
theorem eq_of_operandTexts_eq {os os' : List Operand} (next : i.next = i'.next)
    (kinds : os.map Operand.kind = os'.map Operand.kind)
    (writes : ∀ w, .offset w ∈ os → i.target w ≤ Code.maxTarget)
    (h : os.map i.operandText = os'.map i'.operandText) : os = os' := by
  induction os generalizing os' with
  | nil => exact (List.map_eq_nil_iff.mp h.symm).symm
  | cons o os ih =>
    cases os' with
    | nil => cases h
    | cons o' os' =>
      obtain ⟨hkind, hkinds⟩ := List.cons.inj kinds
      obtain ⟨htext, htexts⟩ := List.cons.inj h
      have first := eq_of_operandText_eq next hkind
        (fun w hw => writes w (hw ▸ List.mem_cons_self)) htext
      have rest := ih hkinds (fun w hw => writes w (List.mem_cons_of_mem o hw)) htexts
      rw [first, rest]

/-- Whole instructions at one position are told apart by their texts, if their targets are written. -/
theorem eq_of_text_eq (whole : i.Whole) (whole' : i'.Whole) (position : i.position = i'.position)
    (writes : i.Writes) (h : i.text = i'.text) : i = i' := by
  obtain ⟨-, tail⟩ := List.cons.inj (tokens_eq_of_text_eq h)
  obtain ⟨mnemonic, texts⟩ := List.cons.inj tail
  have opcode := Opcode.mnemonic_injective mnemonic
  have count : i.operands.length = i'.operands.length := by
    simpa using congrArg List.length texts
  have next : i.next = i'.next := by rw [Instr.next, Instr.next, size, size, position, count]
  have kinds : i.operands.map Operand.kind = i'.operands.map Operand.kind := by
    rw [whole, whole', ← opcode]
    refine Opcode.kinds_eq_of_length whole.takes (opcode ▸ whole'.takes) ?_
    rw [List.length_map, List.length_map, count]
  have operands := eq_of_operandTexts_eq next kinds writes texts
  cases i
  cases i'
  exact (mk.injEq ..).mpr ⟨position, opcode, operands⟩

end Instr

/-! ### All instructions -/

/-- Instructions that follow one another from one position on are told apart by their lines. -/
theorem eq_of_texts_eq {is is' : List Instr} {first last last' : Nat}
    (spans : Code.Contiguous first is last) (spans' : Code.Contiguous first is' last')
    (whole : ∀ i ∈ is, i.Whole) (whole' : ∀ i ∈ is', i.Whole) (writes : ∀ i ∈ is, i.Writes)
    (h : is.map Instr.text = is'.map Instr.text) : is = is' := by
  induction is generalizing is' first with
  | nil => exact (List.map_eq_nil_iff.mp h.symm).symm
  | cons i is ih =>
    cases is' with
    | nil => cases h
    | cons i' is' =>
      obtain ⟨htext, htexts⟩ := List.cons.inj h
      obtain ⟨hfirst, hspans⟩ := spans
      obtain ⟨hfirst', hspans'⟩ := spans'
      obtain ⟨hwhole, hwholes⟩ := List.forall_mem_cons.mp whole
      obtain ⟨hwhole', hwholes'⟩ := List.forall_mem_cons.mp whole'
      obtain ⟨hwrites, hmore⟩ := List.forall_mem_cons.mp writes
      obtain rfl := Instr.eq_of_text_eq hwhole hwhole' (hfirst.trans hfirst'.symm) hwrites htext
      rw [ih hspans hspans' hwholes hwholes' hmore htexts]

namespace Method

variable {m m' : Method}

/-- The first line, without the name and what comes before it. -/
def header (m : Method) : List String :=
  [" (stack_max=" ++ toString m.stackMax, " params=" ++ toString m.params,
    " locals=" ++ toString m.locals ++ ")"]

theorem listing_eq (m : Method) : m.listing = "== disasm: " ++ m.name ++
    (String.singleton '\n').intercalate
      ((String.singleton ',').intercalate m.header :: m.instrs.map Instr.text ++ [""]) := by
  have lines := join_lines (m.instrs.map Instr.text)
  rw [List.map_map] at lines
  have params : ", params=" = String.singleton ',' ++ " params=" := rfl
  have locals : ", locals=" = String.singleton ',' ++ " locals=" := rfl
  have closing : ")\n" = ")" ++ String.singleton '\n' := rfl
  calc m.listing
    _ = "== disasm: " ++ m.name ++ " (stack_max=" ++ toString m.stackMax ++ ", params=" ++
          toString m.params ++ ", locals=" ++ toString m.locals ++ ")\n" ++
          String.join (m.instrs.map ((· ++ "\n") ∘ Instr.text)) := rfl
    _ = _ := by
      rw [lines, params, locals, closing, header, List.cons_append,
        String.intercalate_cons_of_ne_nil (by simp), String.intercalate_cons_cons,
        String.intercalate_cons_cons, String.intercalate_singleton]
      simp only [String.append_assoc]

/-- The code does not reach so far that a target is not written. -/
theorem writes_of_length_le (fits : m.length ≤ 2 ^ 63) {i : Instr} (hi : i ∈ m.instrs) :
    i.Writes := by
  intro w hw
  have short : (m.length : Int) ≤ Code.maxTarget + 1 := by
    unfold Code.maxTarget
    omega
  exact target_le short hi (List.mem_filterMap.mpr ⟨_, hw, rfl⟩)

theorem notMem_header {c : Char} (hc : c = ',' ∨ c = '\n') (m : Method) :
    ∀ s ∈ m.header, c ∉ s.toList := by
  intro s hs
  have number (n : Nat) : c ∉ (toString n).toList := by
    apply Numeral.notMem_toString
    rcases hc with rfl | rfl <;> rfl
  have fixed (t : String) (ht : t ∈ [" (stack_max=", " params=", " locals=", ")"]) :
      c ∉ t.toList := by
    rcases hc with rfl | rfl <;> revert t <;> decide
  simp only [header, List.mem_cons, List.not_mem_nil, or_false] at hs
  rcases hs with rfl | rfl | rfl
  all_goals simp only [String.toList_append, List.mem_append, not_or]
  · exact ⟨fixed _ (by simp), number _⟩
  · exact ⟨fixed _ (by simp), number _⟩
  · exact ⟨⟨fixed _ (by simp), number _⟩, fixed _ (by simp)⟩

/-- The frame is read off the first line. -/
theorem frame_eq_of_header_eq (h : m.header = m'.header) :
    m.stackMax = m'.stackMax ∧ m.params = m'.params ∧ m.locals = m'.locals := by
  obtain ⟨hstack, tail⟩ := List.cons.inj h
  obtain ⟨hparams, last⟩ := List.cons.inj tail
  have hlocals := (String.append_left_inj _).mp (List.singleton_inj.mp last)
  exact ⟨Nat.repr_injective ((String.append_right_inj _).mp hstack),
    Nat.repr_injective ((String.append_right_inj _).mp hparams),
    Nat.repr_injective ((String.append_right_inj _).mp hlocals)⟩

theorem lines_eq_of_listing_eq (name : m.name = m'.name) (h : m.listing = m'.listing) :
    m.header = m'.header ∧ m.instrs.map Instr.text = m'.instrs.map Instr.text := by
  have lines (m : Method) : ∀ s ∈ (String.singleton ',').intercalate m.header ::
      m.instrs.map Instr.text ++ [""], '\n' ∉ s.toList := by
    refine List.forall_mem_append.mpr ⟨List.forall_mem_cons.mpr ⟨?_, ?_⟩, ?_⟩
    · exact notMem_intercalate (by decide) (m.notMem_header (.inr rfl))
    · intro s hs
      obtain ⟨i, -, rfl⟩ := List.mem_map.mp hs
      exact i.newline_notMem_text
    · simp
  rw [listing_eq, listing_eq, name] at h
  have same := eq_of_intercalate_eq (by simp) (by simp) (lines m) (lines m')
    ((String.append_right_inj _).mp h)
  obtain ⟨first, texts⟩ := List.cons.inj (List.append_cancel_right same)
  refine ⟨eq_of_intercalate_eq nofun nofun ?_ ?_ first, texts⟩
  · exact m.notMem_header (.inl rfl)
  · exact m'.notMem_header (.inl rfl)

/-- The listing of a method whose code fits into memory tells the code and the frame. -/
theorem eq_of_listing_eq (name : m.name = m'.name) (fits : m.length ≤ 2 ^ 63)
    (h : m.listing = m'.listing) : m.code = m'.code ∧ m.stackMax = m'.stackMax ∧
      m.params = m'.params ∧ m.locals = m'.locals := by
  obtain ⟨hheader, htexts⟩ := lines_eq_of_listing_eq name h
  have instrs := eq_of_texts_eq m.contiguous m'.contiguous (fun _ => whole) (fun _ => whole)
    (fun _ => writes_of_length_le fits) htexts
  have code := (Code.decodeAll_eq_ok_iff.mp m.decodeAll_code).encoded
  rw [instrs, (Code.decodeAll_eq_ok_iff.mp m'.decodeAll_code).encoded] at code
  exact ⟨code.symm, frame_eq_of_header_eq hheader⟩

end Method

/-- The text of a value tells which one it is, and of two methods of one name the listings are the
same just if all else is the same, code and frame. A memory whose addresses are words holds no code of
more than `2 ^ 63` words. -/
theorem listing_exact : Function.Injective Value.text ∧
    ∀ m m' : Method, m.name = m'.name → m.length ≤ 2 ^ 63 →
      (m.listing = m'.listing ↔ m.code = m'.code ∧ m.stackMax = m'.stackMax ∧
        m.params = m'.params ∧ m.locals = m'.locals) := by
  refine ⟨Value.text_injective, fun m m' name fits => ⟨fun h => ?_, ?_⟩⟩
  · exact Method.eq_of_listing_eq name fits h
  rintro ⟨code, stackMax, params, locals⟩
  have instrs : m.instrs = m'.instrs := by
    have decoded := m.decodeAll_code
    rw [code, m'.decodeAll_code] at decoded
    exact (Except.ok.inj decoded).symm
  unfold Method.listing
  rw [name, stackMax, params, locals, instrs]

/-- `L: putobject 1; opt_case_dispatch {nil: L} N; N: putnil; leave`. -/
def listed : Method where
  name := "listed"
  code := [4, 3, 29, 1, 8, 18446744073709551609, 0, 2, 23]
  stackMax := 1
  params := 0
  locals := 0
  instrs := [⟨0, .putObject, [.value ⟨3⟩]⟩,
    ⟨2, .caseDispatch, [.literal 1, .value .nil, .offset 18446744073709551609, .offset 0]⟩,
    ⟨7, .putNil, []⟩, ⟨8, .leave, []⟩]
  verified := by cbv

example : listed.listing =
    "== disasm: listed (stack_max=1, params=0, locals=0)\n" ++
    "0000 putobject 1\n0002 opt_case_dispatch 1 nil 0 7\n0007 putnil\n0008 leave\n" := by
  decide +kernel

/-- The two ways out of the dispatch are exchanged. -/
def relisted : Method where
  name := "listed"
  code := [4, 3, 29, 1, 8, 0, 18446744073709551609, 2, 23]
  stackMax := 1
  params := 0
  locals := 0
  instrs := [⟨0, .putObject, [.value ⟨3⟩]⟩,
    ⟨2, .caseDispatch, [.literal 1, .value .nil, .offset 0, .offset 18446744073709551609]⟩,
    ⟨7, .putNil, []⟩, ⟨8, .leave, []⟩]
  verified := by cbv

theorem listed_ne_relisted : listed.name = relisted.name ∧ listed.length ≤ 2 ^ 63 ∧
    listed.listing ≠ relisted.listing := by
  have fits : listed.length ≤ 2 ^ 63 := by decide
  refine ⟨rfl, fits, fun same => ?_⟩
  have code := ((listing_exact.2 listed relisted rfl fits).mp same).1
  revert code
  decide

end StackFlow
