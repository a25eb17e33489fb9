import OrderedAtomics.Proofs.Observation
import OrderedAtomics.Proofs.Path

/-! Chains from one tagged end. A thread takes the first node of a chain by putting the one behind
it in its place. It may have followed the link of a node that has left the chain since, and the tag
of the end tells it before the old link does harm. -/

namespace OrderedAtomics

variable {S P R : Type}

/-- A step leaves alone the links of the nodes of others and that of the first node of the chain. -/
structure Spares (o : Watch S P R Unit) (next : S → Nat → Option Nat) (others : List Nat)
    (s s' : S) : Prop where
  advances : o.Advances s s'
  same : ∀ i ∈ others, next s' i = next s i
  first : ∀ i, (o.cell s ()).pointer = some i → next s' i = next s i

namespace Spares

variable {o : Watch S P R Unit} {next : S → Nat → Option Nat} {others : List Nat} {s s' : S}
  {age : Unit → Nat} {seen : Link}

theorem refl (o : Watch S P R Unit) (next : S → Nat → Option Nat) (others : List Nat) (s : S) :
    Spares o next others s s :=
  ⟨fun _ => .inl rfl, fun _ _ => rfl, fun _ _ => rfl⟩

/-- Only the end changes, and it gets the next tag. -/
theorem move (same : next s' = next s)
    (tag : (o.cell s' ()).tag = (o.cell s ()).tag + 1) : Spares o next others s s' :=
  ⟨fun _ => .inr tag, fun i _ => congrFun same i, fun i _ => congrFun same i⟩

/-- Only the link of a node changes that is neither the first nor one of the others. -/
theorem relink (i : Nat) (same : o.cell s' () = o.cell s ())
    (h : ∀ j, j ≠ i → next s' j = next s j) (hi : i ∉ others)
    (hf : (o.cell s ()).pointer ≠ some i) : Spares o next others s s' := by
  refine ⟨fun _ => .inl same, fun j hj => h j ?_, fun j hj => h j ?_⟩
  · rintro rfl; exact hi hj
  · rintro rfl; exact hf hj

theorem tracks (h : Spares o next others s s') (ht : Tracks seen (o.cell s ()) (age ())) :
    Tracks seen (o.cell s' ()) (o.aged s s' age ()) :=
  Tracks.aged ht h.advances

/-- The link that was read of the first node is right as long as the node stays the first. -/
theorem link (h : Spares o next others s s') (ht : Tracks seen (o.cell s ()) (age ())) {i : Nat}
    {n : Option Nat} (hi : seen.pointer = some i) (hn : age () = 0 → next s i = n)
    (ha : o.aged s s' age () = 0) : next s' i = n := by
  obtain ⟨ha, -⟩ := Watch.aged_eq_zero.mp ha
  rw [h.first i (by rw [ht.same ha, hi]), hn ha]

theorem path (h : Spares o next others s s') {start stop : Option Nat} {nodes : List Nat}
    (hn : ∀ i ∈ nodes, i ∈ others) (hp : Path (next s) start nodes stop) :
    Path (next s') start nodes stop :=
  hp.congr fun i hi => h.same i (hn i hi)

end Spares

end OrderedAtomics
