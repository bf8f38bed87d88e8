import MicroC.Assembly.Convention
import MicroC.NodeId

/-!
# Stack frames

Below its frame pointer a function keeps, from the top down, one word for each variable in the order
of declaration, at most one word of padding, and the temporaries of the expression being computed.
The frame pointer is aligned, so the stack is aligned exactly when the number of these words is even.

* `Frame.offset?`: where a variable is.
* `Frame.depth`: how many words there are.
-/

namespace MicroC

/-- The words below the frame pointer of a function. -/
structure Frame where
  /-- The declarations that have a word, the latest first. -/
  slots : List NodeId := []
  /-- Whether a word of padding lies below the variables. -/
  padded : Bool := false
  /-- How many temporaries there are. -/
  temps : Nat := 0
deriving DecidableEq, Repr

namespace Frame

open Convention

/-- The number of words. -/
def depth (f : Frame) : Nat := f.slots.length + f.padded.toNat + f.temps

def isAligned (f : Frame) : Bool := f.depth % 2 == 0

/-- One temporary more. -/
def pushTemps (f : Frame) (n : Nat) : Frame := { f with temps := f.temps + n }

/-- Fewer temporaries. -/
def popTemps (f : Frame) (n : Nat) : Frame := { f with temps := f.temps - n }

def setPadded (f : Frame) (p : Bool) : Frame := { f with padded := p }

/-- Gives a declaration the word below the variables. -/
def declare (f : Frame) (d : NodeId) : Frame := { f with slots := d :: f.slots }

/-- The number of a slot, counted from one at the frame pointer, in a list with the latest first. -/
def slotNumber? (d : NodeId) : List NodeId → Option Nat
  | [] => none
  | e :: es => if d = e then some (es.length + 1) else slotNumber? d es

/-- The place of a variable relative to the frame pointer. -/
def offset? (f : Frame) (d : NodeId) : Option Int :=
  (slotNumber? d f.slots).map fun (n : Nat) => -((wordSize * n : Nat) : Int)

/-- Leaves a block that was entered with frame `outer`: its variables go, and the padding is as it
was. -/
def release (f outer : Frame) : Frame := { f with slots := outer.slots, padded := outer.padded }

/-- How many words the stack pointer moves up when a block entered with frame `outer` is left. -/
def releasedWords (f outer : Frame) : Nat :=
  (f.slots.length + f.padded.toNat) - (outer.slots.length + outer.padded.toNat)

end Frame

end MicroC
