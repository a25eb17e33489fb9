import OrderedAtomics.Cell.Operations

/-! A small word inside a larger one. Every write is a compare-exchange of the whole word that
keeps the neighbouring bytes as they are. -/

namespace OrderedAtomics.SubWord

variable {σ : Type} {n m : Nat}

/-- The bit at which a word of `size` bytes starts, `offset` bytes into one of `base` bytes. -/
def position (size base offset : Nat) : Except Fault Nat :=
  if Nat.pow 2 addressWidth ≤ offset + size then .error .addOverflow
  else if base < offset + size then .error (.doesNotFit size offset base)
  else .ok (8 * offset)

/-- Ones where the small word lies. -/
def mask (n m shift : Nat) : BitVec n := (BitVec.allOnes m).setWidth n <<< shift

def extract (m shift : Nat) (word : BitVec n) : BitVec m := (word >>> shift).setWidth m

/-- The word with its small word replaced. -/
def insert (shift : Nat) (word : BitVec n) (value : BitVec m) : BitVec n :=
  (word &&& ~~~mask n m shift) ||| (value.setWidth n <<< shift)

/-- The large word with the given small word and zeros around it. -/
def surround (n shift : Nat) (value : BitVec m) : BitVec n := value.setWidth n <<< shift

def store (base : Minimal σ (BitVec n)) (shift : Nat) (value : BitVec m) (order : MemoryOrder) :
    Access σ Unit := do
  let _ ← base.update (insert shift · value) order

/-- One attempt on the whole word. A change next to the small word makes it fail on the expected
value, as a spurious failure does. -/
def casWeak (base : Minimal σ (BitVec n)) (shift : Nat) (expected desired : BitVec m)
    (success failure : MemoryOrder) : Access σ (CasOutcome (BitVec m)) := do
  let current ← base.load .relaxed
  let outcome ← base.casWeak (insert shift current expected) (insert shift current desired)
    success failure
  return if outcome.stored then ⟨true, expected⟩ else ⟨false, extract m shift outcome.expected⟩

/-- The small word at bit `shift` of the word that `base` holds. -/
def machine (base : Minimal σ (BitVec n)) (m shift : Nat) : Minimal σ (BitVec m) where
  load order := do return extract m shift (← base.load order)
  store := store base shift
  casWeak := casWeak base shift
  isLockFree := base.isLockFree
  patience := base.patience

end OrderedAtomics.SubWord
