import OrderedAtomics.Pool
import OrderedAtomics.Protocol

/-! The operations of a pool step by step: each load and each compare-exchange of the head, and
each load and store of the link of a slot, is one step. What a thread has to itself is the list of
the slots it holds. -/

namespace OrderedAtomics.Pool

variable {ν : Type} [Inhabited ν]

inductive Call where
  | allocate
  /-- Only for a slot that the thread holds. -/
  | deallocate (slot : Nat)
  | reserve (additional : Nat)
  deriving DecidableEq, Repr

inductive Reply where
  | slot (i : Nat)
  | exhausted
  | done
  deriving DecidableEq, Repr

/-- Slots on their way into the pool, linked from the first to the last. The notice is for when they
have arrived. -/
structure Chain where
  first : Nat
  last : Nat
  notice : Option Notice
  deriving DecidableEq, Repr

inductive Point where
  | loadForPop
  | loadNext (head : Link) (slot : Nat)
  | swapForPop (head : Link) (slot : Nat) (next : Option Nat)
  | grow
  /-- Makes the new slots, which nobody else can see yet. -/
  | makeChain (additional : Nat)
  | loadForPush (chain : Chain)
  | storeNext (chain : Chain) (head : Link)
  | swapForPush (chain : Chain) (head : Link)
  deriving DecidableEq, Repr

/-- Where a thread goes on that has seen the head in order to take a slot. -/
def popAt (policy : Policy) (head : Link) : Point ⊕ Reply :=
  match head.pointer, policy with
  | some i, _ => .inl (.loadNext head i)
  | none, .caching => .inl .grow
  | none, .static => .inr .exhausted

def enter (held : List Nat) : Call → Option (List Nat × Point)
  | .allocate => some (held, .loadForPop)
  | .deallocate i => if i ∈ held then some (held.erase i, .loadForPush ⟨i, i, none⟩) else none
  | .reserve n => some (held, .makeChain n)

def noteAll (p : Pool ν) (n : Option Notice) : Pool ν :=
  match n with
  | some n => p.note n
  | none => p

def step (spurious : Bool) (p : Pool ν) (held : List Nat) :
    Point → Pool ν × List Nat × (Point ⊕ Reply)
  | .loadForPop =>
    let next := popAt p.policy p.head
    (p, held, next)
  | .loadNext head i =>
    let next := p.next i
    (p, held, .inl (.swapForPop head i next))
  | .swapForPop head i next =>
    if p.head = head && !spurious then
      (p.setHead (head.advance next), i :: held, .inr (.slot i))
    else
      let next := popAt p.policy p.head
      (p, held, next)
  | .grow =>
    let fresh := p.size
    ((p.note (.growing (fresh + 1))).extend 1, fresh :: held, .inr (.slot fresh))
  | .makeChain n =>
    match p.policy, n with
    | .static, _ | .caching, 0 => (p, held, .inr .done)
    | .caching, n + 1 =>
      let base := p.size
      (p.extend (n + 1), held,
        .inl (.loadForPush ⟨base, base + n, some (.reserved (n + 1))⟩))
  | .loadForPush chain =>
    let head := p.head
    (p, held, .inl (.storeNext chain head))
  | .storeNext chain head =>
    (p.setNext chain.last head.pointer, held, .inl (.swapForPush chain head))
  | .swapForPush chain head =>
    if p.head = head && !spurious then
      (noteAll (p.setHead (head.advance (some chain.first))) chain.notice, held, .inr .done)
    else
      let head := p.head
      (p, held, .inl (.storeNext chain head))

def protocol : Protocol (Pool ν) (List Nat) Call Point Reply where
  enter := enter
  step spurious p held point := step spurious p held point

/-- The steps of the longest operation without interference. -/
abbrev soloSteps : Nat := 4

/-- A call of the only thread, which has a reply if the thread may make it. -/
def alone (p : Pool ν) (held : List Nat) (call : Call) : Pool ν × Option (List Nat × Reply) :=
  protocol.alone soloSteps p held call

end OrderedAtomics.Pool
