import StackFlow.Proofs.Assembly.Assembled

/-!
Labels that are marked again. The assembler complains of the second mark when it has already taken it:
what referred to the label leads to the new position, also from lines above. Main statement: the text
is built as if the first mark were not there, and this is what is built without the second one just
where that makes no difference (`build_mark_again`).
-/
namespace StackFlow

namespace Directive

/-- The mark that the line adds, if it stands at the position. -/
def marksAt (position : Nat) : Directive → List (Label × Nat)
  | .mark label => [(label, position)]
  | _ => []

/-- The line marks the label. -/
def marks (label : Label) : Directive → Bool
  | .mark other => other == label
  | _ => false

theorem marks_iff {label : Label} {d : Directive} : d.marks label = true ↔ d = .mark label := by
  cases d <;> simp [marks]

end Directive

namespace Assembly

variable {a : Assembly} {label : Label}

def withMarks (a : Assembly) (marks : List (Label × Nat)) : Assembly := { a with marks }

/-- A line does the same whatever is marked before it. -/
theorem add_withMarks (marks : List (Label × Nat)) (d : Directive) :
    (a.withMarks marks).add d = (a.add d).withMarks (d.marksAt a.position ++ marks) := by
  have tracked (op : Opcode) : (a.withMarks marks).trackOpcode op =
      (a.trackOpcode op).withMarks marks := by
    unfold trackOpcode
    cases op.effect <;> rfl
  have emitted (op : Opcode) (operands : List Word) :
      (a.withMarks marks).emit op operands = (a.emit op operands).withMarks marks := by
    rw [emit, tracked]
    rfl
  cases d with
  | emit op operands => exact emitted op operands
  | putObject v =>
    simp only [add, putObject]
    split
    · exact emitted ..
    · split <;> exact emitted ..
  | jump op label =>
    simp only [add, jump, emitted]
    rfl
  | dispatch cases other => simp only [add, dispatch_eq]; rfl
  | mark label => rfl
  | _ => rfl

/-- Lines do the same whatever is marked before them, and mark the labels that they name. -/
theorem exists_foldl_withMarks (a : Assembly) (ds : List Directive) :
    ∃ new : List (Label × Nat), (∀ l, (new.lookup l).isSome ↔ .mark l ∈ ds) ∧
      ∀ marks, ds.foldl add (a.withMarks marks) = (ds.foldl add a).withMarks (new ++ marks) := by
  induction ds generalizing a with
  | nil => exact ⟨[], by simp, fun _ => rfl⟩
  | cons d ds ih =>
    obtain ⟨new, hnew, hfold⟩ := ih (a.add d)
    refine ⟨new ++ d.marksAt a.position, fun l => ?_, fun marks => ?_⟩
    · have first : ((d.marksAt a.position).lookup l).isSome ↔ d = .mark l := by
        cases d with
        | mark other =>
          rw [Directive.marksAt, List.lookup_cons, Directive.mark.injEq, @eq_comm _ other]
          by_cases hl : l = other
          · simp [hl]
          · have hne : (l == other) = false := by simpa using hl
            simp [hne, hl]
        | _ => simp [Directive.marksAt]
      rw [List.lookup_append, Option.isSome_or, Bool.or_eq_true, hnew, first, List.mem_cons,
        or_comm, @eq_comm _ d]
    · rw [List.foldl_cons, add_withMarks, hfold, List.foldl_cons, List.append_assoc]

theorem words_withMarks {marks marks' : List (Label × Nat)}
    (same : ∀ l ∈ a.unresolved.map Unresolved.label, marks.lookup l = marks'.lookup l) :
    (a.withMarks marks).words = (a.withMarks marks').words := by
  have patched : ∀ (us : List Unresolved) (code : List Word),
      (∀ u ∈ us, marks.lookup u.label = marks'.lookup u.label) →
      us.foldlM (a.withMarks marks).patch code = us.foldlM (a.withMarks marks').patch code := by
    intro us
    induction us with
    | nil => exact fun _ _ => rfl
    | cons u us ih =>
      intro code hus
      obtain ⟨hu, hmore⟩ := List.forall_mem_cons.mp hus
      have first : (a.withMarks marks).patch code u = (a.withMarks marks').patch code u := by
        unfold patch withMarks
        rw [hu]
      rw [List.foldlM_cons, List.foldlM_cons, first]
      exact bind_congr fun code => ih code hmore
  exact patched a.unresolved a.code fun u hu => same _ (List.mem_map_of_mem hu)

/-- Of the marks only those count that something refers to. -/
theorem build_withMarks {marks marks' : List (Label × Nat)}
    (same : ∀ l ∈ a.unresolved.map Unresolved.label, marks.lookup l = marks'.lookup l)
    (name : String) (params locals : Nat) (stackMax? : Option Nat) :
    (a.withMarks marks).build name params locals stackMax? =
      (a.withMarks marks').build name params locals stackMax? := by
  rw [build, build, words_withMarks same]
  rfl

/-- The offset tells how far a position is away. -/
theorem offset_injective {p q base : Nat} (hp : p < 2 ^ 63) (hq : q < 2 ^ 63)
    (h : offset p base = offset q base) : p = q := by
  have distances := congrArg UInt64.toInt64 h
  rw [offset, offset, Int64.toInt64_toUInt64, Int64.toInt64_toUInt64] at distances
  have positions := congrArg Int64.toInt (Int64.sub_left_inj _ |>.mp distances)
  rw [Int64.toInt_ofNat_of_lt hp, Int64.toInt_ofNat_of_lt hq] at positions
  exact Int.ofNat_inj.mp positions

/-- Two lines with the same words have the same offsets. -/
theorem offsets_eq_of_words_eq {f g : Label → Nat → Word} {d : Directive} {position : Nat}
    (h : d.words f position = d.words g position) :
    ∀ u ∈ d.waits position, f u.label u.base = g u.label u.base := by
  cases d with
  | jump op label => simpa [Directive.words, Directive.line?, Directive.waits, Code.spell] using h
  | dispatch cases other =>
    rw [words_dispatch, words_dispatch] at h
    have tables := List.cons.inj (List.cons.inj h).2
    obtain ⟨entries, last⟩ := List.append_inj' tables.2 rfl
    have same : ∀ (cs : List (Value × Label)) (base : Nat),
        cs.flatMap (fun c => [c.1.bits, f c.2 base]) =
          cs.flatMap (fun c => [c.1.bits, g c.2 base]) →
        ∀ l ∈ cs.map Prod.snd, f l base = g l base := by
      intro cs base
      induction cs with
      | nil => simp
      | cons c cs ih =>
        intro hcs
        simp only [List.flatMap_cons, List.cons_append, List.nil_append, List.cons.injEq,
          true_and] at hcs
        exact List.forall_mem_cons.mpr ⟨hcs.1, ih hcs.2⟩
    intro u hu
    have hl : u.label ∈ (Directive.dispatch cases other).labels := by
      rw [← Directive.map_label_waits _ position]
      exact List.mem_map_of_mem hu
    obtain ⟨slot, -, rfl⟩ := List.mem_map.mp hu
    rcases List.mem_append.mp hl with hl | hl
    · exact same cases _ entries _ hl
    · rw [List.mem_singleton.mp hl]
      exact List.singleton_inj.mp last
  | _ => exact List.forall_mem_nil _

/-- The finished code tells where each of its offsets leads. -/
theorem offsets_eq_of_filled_eq {f g : Label → Nat → Word} {ds : List Directive}
    (h : (ofDirectives ds).filled f = (ofDirectives ds).filled g) :
    ∀ u ∈ (ofDirectives ds).unresolved, f u.label u.base = g u.label u.base := by
  have run : ∀ (ds : List Directive) {a : Assembly}, a.Placed →
      (a.filled f = a.filled g → ∀ u ∈ a.unresolved, f u.label u.base = g u.label u.base) →
      (ds.foldl add a).filled f = (ds.foldl add a).filled g →
      ∀ u ∈ (ds.foldl add a).unresolved, f u.label u.base = g u.label u.base := by
    intro ds
    induction ds with
    | nil => exact fun _ start => start
    | cons d ds ih =>
      intro a placed start
      obtain ⟨placed', hf⟩ := filled_add f placed d
      obtain ⟨-, hg⟩ := filled_add g placed d
      refine ih placed' fun same => ?_
      rw [hf, hg] at same
      obtain ⟨before, line⟩ := List.append_inj same ((length_filled f).trans (length_filled g).symm)
      rw [add_unresolved]
      exact List.forall_mem_append.mpr ⟨start before, offsets_eq_of_words_eq line⟩
  exact run ds (List.forall_mem_nil _) (fun _ => List.forall_mem_nil _) h

theorem words_eq_ok {code : List Word} (h : a.words = .ok code) :
    code = a.filled (offsetTo a.dest) := by
  rcases forall_or_firstBad (fun l => a.marked l) (a.unresolved.map Unresolved.label) with
    marked | ⟨l, first⟩
  · rw [words_of_marked marked] at h
    exact (Except.ok.inj h).symm
  · rw [words_of_firstBad first] at h
    cases h

theorem build_eq_ok {name : String} {params locals : Nat} {stackMax? : Option Nat} {m : Method}
    (h : a.build name params locals stackMax? = .ok m) : a.words = .ok m.code := by
  unfold build at h
  split at h
  · cases h
  next code finished =>
    split at h
    · cases h
    next k accepted =>
      cases h
      rw [finished, (Method.ofCode_eq_ok_iff.mp accepted).2.1]

end Assembly

section MarkAgain

open Assembly

variable {before after : List Directive} {label : Label}

/-- It makes no difference to mark the label again between the two texts: nothing refers to it, or
the second text marks it anyway, or it was last marked at the same position. -/
def Unmoved (before after : List Directive) (label : Label) : Prop :=
  label ∉ (before ++ after).flatMap Directive.labels ∨ .mark label ∈ after ∨
    LastMarked before label (ofDirectives before).position

/-- Without the lines that mark a label the label is not marked, and all else is the same. -/
theorem ofDirectives_filter_marks (ds : List Directive) (label : Label) :
    ofDirectives (ds.filter fun d => !d.marks label) =
      (ofDirectives ds).withMarks ((ofDirectives ds).marks.filter fun m => m.1 != label) := by
  induction ds using List.reverseRecOn with
  | nil => rfl
  | append_singleton ds d ih =>
    have marks : ((ofDirectives ds).add d).marks =
        d.marksAt (ofDirectives ds).position ++ (ofDirectives ds).marks :=
      congrArg Assembly.marks (add_withMarks (ofDirectives ds).marks d)
    rw [List.filter_append, ofDirectives_concat, marks, List.filter_append]
    by_cases hd : d = .mark label
    · subst hd
      have line : [Directive.mark label].filter (fun d => !d.marks label) = [] := by
        simp [Directive.marks]
      have mark : (Directive.marksAt (ofDirectives ds).position (.mark label)).filter
          (fun m => m.1 != label) = [] := by simp [Directive.marksAt]
      rw [line, mark, List.append_nil, List.nil_append, ih]
      rfl
    · have line : [d].filter (fun d => !d.marks label) = [d] := by
        simpa [← Directive.marks_iff] using hd
      have mark : (d.marksAt (ofDirectives ds).position).filter (fun m => m.1 != label) =
          d.marksAt (ofDirectives ds).position := by
        cases d <;> simp_all [Directive.marksAt]
      rw [line, mark, ofDirectives_concat, ih, add_withMarks]

/-- The text with the second mark and the one without it differ in where the label stands. -/
theorem exists_withMarks (before after : List Directive) (label : Label) :
    ∃ new : List (Label × Nat), (∀ l, (new.lookup l).isSome ↔ .mark l ∈ after) ∧
      ofDirectives (before ++ .mark label :: after) = (ofDirectives (before ++ after)).withMarks
        (new ++ (label, (ofDirectives before).position) :: (ofDirectives before).marks) ∧
      ofDirectives (before ++ after) = (ofDirectives (before ++ after)).withMarks
        (new ++ (ofDirectives before).marks) ∧
      ofDirectives (before.filter (!Directive.marks label ·) ++ .mark label :: after) =
        (ofDirectives (before ++ after)).withMarks (new ++ (label, (ofDirectives before).position) ::
          (ofDirectives before).marks.filter (·.1 != label)) := by
  obtain ⟨new, hnew, hfold⟩ := exists_foldl_withMarks (ofDirectives before) after
  refine ⟨new, hnew, ?_, ?_, ?_⟩
  · rw [ofDirectives_append, ofDirectives_append, ← hfold]
    rfl
  · rw [ofDirectives_append, ← hfold]
    rfl
  · rw [ofDirectives_append, ofDirectives_filter_marks, ofDirectives_append, ← hfold]
    rfl

/-- What a look-up finds if the label is marked again between the two texts. -/
theorem lookup_mark_again {new marks : List (Label × Nat)} {l : Label} {p : Nat} :
    (new ++ (label, p) :: marks).lookup l =
      (new.lookup l).or (if l = label then some p else marks.lookup l) := by
  rw [List.lookup_append, List.lookup_cons]
  by_cases hl : l = label
  · simp [hl]
  · have hne : (l == label) = false := by simpa using hl
    simp [hne, hl]

theorem lookup_filter_ne {marks : List (Label × Nat)} {l : Label} (hl : l ≠ label) :
    (marks.filter fun m => m.1 != label).lookup l = marks.lookup l := by
  induction marks with
  | nil => rfl
  | cons m marks ih =>
    by_cases hm : m.1 = label
    · have hne : (l == m.1) = false := by simpa [hm] using hl
      rw [List.filter_cons_of_neg (by simp [hm]), List.lookup_cons, hne, ih]
    · rw [List.filter_cons_of_pos (by simpa using hm), List.lookup_cons, List.lookup_cons, ih]

/-- A label that moves takes the offsets to it along. -/
theorem unmoved_of_words {code : List Word} (marked : .mark label ∈ before)
    (fits : (ofDirectives (before ++ after)).position < 2 ^ 63)
    (withMark : (ofDirectives (before ++ .mark label :: after)).words = .ok code)
    (without : (ofDirectives (before ++ after)).words = .ok code) : Unmoved before after label := by
  by_contra moved
  rw [Unmoved, not_or, not_or, not_not] at moved
  obtain ⟨used, final, away⟩ := moved
  obtain ⟨new, hnew, again, once, -⟩ := exists_withMarks before after label
  have unmarked : new.lookup label = none := by
    rw [← Option.not_isSome_iff_eq_none, hnew]
    exact final
  obtain ⟨stood, last⟩ := exists_lastMarked_iff.mpr marked
  -- the two texts put their offsets into one code, in the same places
  have same : (ofDirectives (before ++ after)).filled
      (offsetTo (ofDirectives (before ++ .mark label :: after)).dest) =
        (ofDirectives (before ++ after)).filled (offsetTo (ofDirectives (before ++ after)).dest) := by
    have sameText (f : Label → Nat → Word) :
        (ofDirectives (before ++ .mark label :: after)).filled f =
          (ofDirectives (before ++ after)).filled f := by
      rw [again]
      rfl
    rw [← sameText, ← words_eq_ok withMark, words_eq_ok without]
  have here : (ofDirectives (before ++ .mark label :: after)).dest label =
      (ofDirectives before).position := by
    rw [again, dest, withMarks, lookup_mark_again, unmarked, if_pos rfl]
    rfl
  have there : (ofDirectives (before ++ after)).dest label = stood := by
    rw [once, dest, withMarks, List.lookup_append, unmarked, lookup_marks_eq_some_iff.mpr last]
    rfl
  rw [← labels_ofDirectives] at used
  obtain ⟨u, hu, rfl⟩ := List.mem_map.mp used
  have offsets := offsets_eq_of_filled_eq same u hu
  rw [offsetTo, offsetTo, here, there] at offsets
  have within := Nat.lt_of_le_of_lt (position_le_append before after) fits
  rw [offset_injective within (Nat.lt_of_le_of_lt last.le_position within) offsets] at away
  exact away last

section Build

variable (name : String) (params locals : Nat) (stackMax? : Option Nat)

/-- The last mark of a label is the one that counts, whether it was complained of or not. -/
theorem build_eq_without_earlier (before after : List Directive) (label : Label) :
    (ofDirectives (before ++ .mark label :: after)).build name params locals stackMax? =
      (ofDirectives (before.filter (!Directive.marks label ·) ++ .mark label :: after)).build
        name params locals stackMax? := by
  obtain ⟨new, -, again, -, alone⟩ := exists_withMarks before after label
  rw [again, alone]
  apply build_withMarks
  intro l _
  rw [lookup_mark_again, lookup_mark_again]
  split
  · rfl
  next hl => rw [lookup_filter_ne hl]

theorem build_eq_of_unmoved (unmoved : Unmoved before after label) :
    (ofDirectives (before ++ .mark label :: after)).build name params locals stackMax? =
      (ofDirectives (before ++ after)).build name params locals stackMax? := by
  obtain ⟨new, hnew, again, once, -⟩ := exists_withMarks before after label
  rw [again, once]
  apply build_withMarks
  intro l hl
  rw [lookup_mark_again, List.lookup_append]
  split
  next same =>
    subst same
    rcases unmoved with unused | later | still
    · exact absurd (labels_ofDirectives _ ▸ hl) unused
    · rw [← hnew, Option.isSome_iff_exists] at later
      obtain ⟨p, hp⟩ := later
      rw [hp, Option.some_or, Option.some_or]
    · rw [lookup_marks_eq_some_iff.mpr still]
  next => rfl

end Build

/-- What is complained of later does not depend on how often a label was marked. -/
theorem complaint?_mark_again (marked : .mark label ∈ before) (d : Directive) :
    (ofDirectives (before ++ .mark label :: after)).complaint? d =
      (ofDirectives (before ++ after)).complaint? d := by
  have known (l : Label) : (ofDirectives (before ++ .mark label :: after)).marked l =
      (ofDirectives (before ++ after)).marked l := by
    rw [Bool.eq_iff_iff, marked_iff, marked_iff]
    simp only [List.mem_append, List.mem_cons, Directive.mark.injEq]
    constructor
    · rintro (h | rfl | h)
      · exact .inl h
      · exact .inl marked
      · exact .inr h
    · rintro (h | h)
      · exact .inl h
      · exact .inr (.inr h)
  cases d with
  | mark l => rw [complaint?, complaint?, known]
  | _ => rfl

/-- A label that is marked again is complained of, and all the same it moves: what is built is what
the text builds in which the label was not marked before. This is what the text builds without the
second mark just if nothing refers to the label, or the label is marked once more later on, or it
stands where it stood. Later lines are complained of as they would be without the mark. A memory
whose addresses are words holds no code of `2 ^ 63` words, and in less code an offset tells the
position that it leads to. -/
theorem build_mark_again (name : String) (params locals : Nat) (stackMax? : Option Nat)
    (before after : List Directive) (label : Label) (marked : .mark label ∈ before) :
    let built ds := (ofDirectives ds).build name params locals stackMax?
    (ofDirectives before).complaint? (.mark label) = some (.duplicateLabel label) ∧
    built (before ++ .mark label :: after) =
      built (before.filter (fun d => !d.marks label) ++ .mark label :: after) ∧
    (Unmoved before after label →
      built (before ++ .mark label :: after) = built (before ++ after)) ∧
    ((ofDirectives (before ++ after)).position < 2 ^ 63 →
      ∀ m, built (before ++ .mark label :: after) = .ok m → built (before ++ after) = .ok m →
        Unmoved before after label) ∧
    ∀ n d, (ofDirectives (before ++ .mark label :: after.take n)).complaint? d =
      (ofDirectives (before ++ after.take n)).complaint? d := by
  intro built
  have known : (ofDirectives before).marked label = true := marked_iff.mpr marked
  refine ⟨by rw [complaint?, if_pos known], ?_, ?_, ?_, fun n d => ?_⟩
  · exact build_eq_without_earlier name params locals stackMax? before after label
  · exact build_eq_of_unmoved name params locals stackMax?
  · intro fits m withMark without
    exact unmoved_of_words marked fits (build_eq_ok withMark) (build_eq_ok without)
  · exact complaint?_mark_again marked d

/-- `L: nop; L: jump L`, with the second mark of `L` and without it. -/
def turning (again : List Directive) : List Directive :=
  [.mark 0, .emit .nop []] ++ again ++ [.jump .jump 0]

def turnsToItself : Method where
  name := "turning"
  code := [0, 25, 18446744073709551614]
  stackMax := 0
  params := 0
  locals := 0
  instrs := [⟨0, .nop, []⟩, ⟨1, .jump, [.offset 18446744073709551614]⟩]
  verified := by cbv

def turnsBack : Method where
  name := "turning"
  code := [0, 25, 18446744073709551613]
  stackMax := 0
  params := 0
  locals := 0
  instrs := [⟨0, .nop, []⟩, ⟨1, .jump, [.offset 18446744073709551613]⟩]
  verified := by cbv

theorem turning_builds :
    (ofDirectives (turning [.mark 0])).build "turning" 0 0 none = .ok turnsToItself := by
  have finished : (ofDirectives (turning [.mark 0])).words = .ok turnsToItself.code := by rfl
  rw [build_of_words finished, mapError_eq_ok_iff]
  exact Method.ofCode_eq_ok_iff.mpr ⟨rfl, rfl, rfl, rfl, rfl⟩

/-- The mark that is complained of takes the jump with it. -/
theorem turning_moves :
    (ofDirectives [.mark 0, .emit .nop []]).complaint? (.mark 0) = some (.duplicateLabel 0) ∧
    (ofDirectives (turning [.mark 0])).build "turning" 0 0 none = .ok turnsToItself ∧
    (ofDirectives (turning [])).build "turning" 0 0 none = .ok turnsBack ∧
    turnsToItself.code ≠ turnsBack.code := by
  have once : (ofDirectives (turning [])).words = .ok turnsBack.code := by rfl
  refine ⟨by rfl, turning_builds, ?_, by decide⟩
  rw [build_of_words once, mapError_eq_ok_iff]
  exact Method.ofCode_eq_ok_iff.mpr ⟨rfl, rfl, rfl, rfl, rfl⟩

/-- A third mark finds the label where the second has left it. -/
theorem turning_settled :
    (ofDirectives (turning [.mark 0, .mark 0])).build "turning" 0 0 none = .ok turnsToItself ∧
    Unmoved [.mark 0, .emit .nop []] [.mark 0, .jump .jump 0] 0 := by
  have once : (ofDirectives (turning [.mark 0])).build "turning" 0 0 none = .ok turnsToItself :=
    turning_builds
  obtain ⟨-, -, same, moves, -⟩ := build_mark_again "turning" 0 0 none [.mark 0, .emit .nop []]
    [.mark 0, .jump .jump 0] 0 (List.mem_cons_self ..)
  have twice := (same (.inr (.inl (List.mem_cons_self ..)))).trans once
  exact ⟨twice, moves (by decide) turnsToItself twice once⟩

end MarkAgain

end StackFlow
