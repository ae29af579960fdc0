import StackFlow.Host

/-!
The table of host functions that compiled code may call, by name.
-/
namespace StackFlow

structure Extern where
  name : String
  arity : Nat
  fn : HostFn

/-- Entries have different names. -/
structure ExternTable where
  entries : List Extern := []

namespace ExternTable

/-- Function that sends a method with `count` arguments. -/
def funcallName (count : Nat) : String := s!"basalt_funcall_{count}"

def throwName : String := "basalt_throw"

def get? (t : ExternTable) (name : String) : Option Extern := t.entries.find? (·.name == name)

/-- An entry of the same name is replaced. -/
def register (t : ExternTable) (e : Extern) : ExternTable :=
  ⟨t.entries.filter (·.name != e.name) ++ [e]⟩

/-- The entry of that name, if it takes that many arguments. -/
def resolve? (t : ExternTable) (name : String) (count : Nat) : Option Extern :=
  (t.get? name).filter (·.arity == count)

def size (t : ExternTable) : Nat := t.entries.length

/-- Entries by name. -/
def sorted (t : ExternTable) : List Extern := t.entries.mergeSort fun a b => a.name ≤ b.name

/-- Sends with up to three arguments, and throws. -/
def standard : ExternTable :=
  ⟨[⟨funcallName 0, 2, .funcall⟩, ⟨funcallName 1, 3, .funcall⟩, ⟨funcallName 2, 4, .funcall⟩,
    ⟨funcallName 3, 5, .funcall⟩, ⟨throwName, 2, .throw⟩]⟩

/-- Calls the function of that name. -/
def call (t : ExternTable) (name : String) (args : List Word) (h : Host) : Word × Host :=
  match t.get? name with
  | some e => e.fn.call args h
  | none => HostFn.absent.call args h

theorem get?_register_self (t : ExternTable) (e : Extern) :
    (t.register e).get? e.name = some e := by
  have h : (t.entries.filter (·.name != e.name)).find? (·.name == e.name) = none := by
    rw [List.find?_eq_none]
    intro x hx
    simpa using (List.mem_filter.1 hx).2
  simp [register, get?, List.find?_append, h]

theorem get?_register_of_ne (t : ExternTable) {e : Extern} {name : String} (h : e.name ≠ name) :
    (t.register e).get? name = t.get? name := by
  unfold register get?
  rw [List.find?_append, List.find?_cons_of_neg (by simpa using h), List.find?_nil, Option.or_none]
  induction t.entries with
  | nil => rfl
  | cons x xs ih =>
    by_cases hx : x.name = e.name
    · have : x.name ≠ name := fun hn => h (hx ▸ hn)
      simp [hx, ih, h]
    · by_cases hn : x.name = name
      · subst hn; simp [Ne.symm h]
      · simp [hx, hn, ih]

end ExternTable

end StackFlow
