import StackFlow.Numeral

/-!
Tagged host values. A word with its low bit set is a small integer; four of the other words are the
constants `false`, `nil`, `true` and `undef`.
-/
namespace StackFlow

structure Value where
  bits : Word
  deriving DecidableEq, Repr

namespace Value

protected def false : Value := ⟨0x00⟩

def nil : Value := ⟨0x08⟩

protected def true : Value := ⟨0x14⟩

/-- The value that stands for no value, as after a throw. -/
def undef : Value := ⟨0x34⟩

/-- A small integer. It has 63 bits, so the top bit of `n` is lost. -/
def fixnum (n : Int64) : Value := ⟨(n.toUInt64 <<< 1) ||| 1⟩

def ofBool (b : Bool) : Value := if b then Value.true else Value.false

def isFixnum (v : Value) : Bool := v.bits &&& 1 != 0

/-- The integer of a tagged word; its sign comes from the top bit of the word. -/
def fixnum? (v : Value) : Option Int64 :=
  if v.isFixnum then some (v.bits.toInt64 >>> 1) else none

def isNil (v : Value) : Bool := v == nil

/-- Every value is true in a condition but `false` and `nil`. -/
def truthy (v : Value) : Bool := v.bits &&& ~~~nil.bits != 0

def text (v : Value) : String :=
  if v = Value.false then "false"
  else if v = nil then "nil"
  else if v = Value.true then "true"
  else if v = undef then "undef"
  else match v.fixnum? with
    | some n => toString n.toInt
    | none => "#<" ++ Numeral.hex v.bits ++ ">"

end Value

/-! Names of the methods that the specialised operators stand for: the bytes of the operator, the
first one highest. -/
namespace Selector

def plus : Word := 0x2b

def minus : Word := 0x2d

def mult : Word := 0x2a

def lt : Word := 0x3c

def le : Word := 0x3c3d

def gt : Word := 0x3e

def ge : Word := 0x3e3d

def eq : Word := 0x3d3d

end Selector

end StackFlow
