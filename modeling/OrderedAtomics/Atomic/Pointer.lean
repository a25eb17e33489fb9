import OrderedAtomics.Atomic
import OrderedAtomics.Cell.Native

/-! Tagged pointers in a double word, updated by a compare-exchange of both halves at once. -/

namespace OrderedAtomics.AtomicTaggedPointer

abbrev State := Cell DoubleWord

def atomic (lockFree : Bool := true) : Atomic State TaggedPointer DoubleWord :=
  ⟨DoubleSwap.machine Native.strict lockFree, .taggedPointer⟩

def fresh (t : TaggedPointer) : State := ⟨t.toWord, [], []⟩

def value (s : State) : TaggedPointer := .ofWord s.value

/-- Replaces one pair by another. -/
def compareAndSwap (old new : TaggedPointer) : Access State Bool := do
  return (← atomic.cas .strong old new (.ofSuccess .seqCst)).stored

/-- Replaces a pair by another pointer under the next tag. -/
def compareAndSwapPointer (old : TaggedPointer) (pointer : Address) : Access State Bool :=
  compareAndSwap old (old.advance pointer)

inductive Call where
  | basic (call : Atomic.Call TaggedPointer)
  | compareAndSwap (old new : TaggedPointer)
  | compareAndSwapPointer (old : TaggedPointer) (pointer : Address)
  deriving DecidableEq, Repr

def perform (lockFree : Bool) : Call → Access State (Atomic.Reply TaggedPointer)
  | .basic c => (atomic lockFree).perform c
  | .compareAndSwap old new => do return .truth (← compareAndSwap old new)
  | .compareAndSwapPointer old p => do return .truth (← compareAndSwapPointer old p)

def text (s : State) : String := Text.wrapped "AtomicTaggedPtr" (value s).text

end OrderedAtomics.AtomicTaggedPointer
