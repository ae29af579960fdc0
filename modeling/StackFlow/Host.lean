import StackFlow.Value

/-!
The host's side of compiled code: the functions that it offers, and the exception that waits to be
taken.
-/
namespace StackFlow

/-- Result of a method on integers. They are added, subtracted and multiplied as signed words, and
the top bit of the result is lost; any other method gives `nil`. -/
def Selector.onFixnums (selector : Word) (a b : Int64) : Value :=
  if selector = plus then .fixnum (a + b)
  else if selector = minus then .fixnum (a - b)
  else if selector = mult then .fixnum (a * b)
  else if selector = lt then .ofBool (a < b)
  else if selector = le then .ofBool (a ≤ b)
  else if selector = gt then .ofBool (b < a)
  else if selector = ge then .ofBool (b ≤ a)
  else if selector = eq then .ofBool (a = b)
  else .nil

/-- Only an integer has methods, and only with one integer for an argument; all else gives `nil`. -/
def Selector.send (selector : Word) (receiver : Value) : List Value → Value
  | [arg] =>
    match receiver.fixnum?, arg.fixnum? with
    | some a, some b => onFixnums selector a b
    | _, _ => .nil
  | _ => .nil

/-- What compiled code can change on the host's side. -/
structure Host where
  /-- The exception that waits to be taken. -/
  pending : Option Value := none
  /-- States and values of the throws so far. -/
  thrown : List (Word × Value) := []
  deriving DecidableEq, Repr

namespace Host

def throw (h : Host) (state : Word) (v : Value) : Host :=
  { pending := some v, thrown := h.thrown ++ [(state, v)] }

/-- No exception waits any more. -/
def clear (h : Host) : Host := { h with pending := none }

/-- Hands out the exception that waits. -/
def take (h : Host) : Option Value × Host := (h.pending, h.clear)

end Host

/-- A function of the host. Its arguments and its result are words. -/
inductive HostFn
  /-- Receiver, selector and arguments: sends a method. -/
  | funcall
  /-- State and value: throws. -/
  | throw
  /-- Any other function; what it gives depends on its arguments alone. -/
  | other (result : List Word → Word)
  /-- Only declared. -/
  | absent

namespace HostFn

def call (fn : HostFn) (args : List Word) (h : Host) : Word × Host :=
  match fn, args with
  | .funcall, receiver :: selector :: args =>
    ((Selector.send selector ⟨receiver⟩ (args.map Value.mk)).bits, h)
  | .throw, [state, v] => (Value.undef.bits, h.throw state ⟨v⟩)
  | .other result, args => (result args, h)
  | _, _ => (Value.nil.bits, h)

theorem call_pending_of_ne_throw {fn : HostFn} (hfn : fn ≠ .throw) (args : List Word) (h : Host) :
    (fn.call args h).2 = h := by
  unfold call
  split <;> first | rfl | exact absurd rfl hfn

end HostFn

end StackFlow
