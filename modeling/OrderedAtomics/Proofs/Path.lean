import Mathlib.Data.List.Nodup

/-! Walks along links. A path goes from a link through some nodes to the link behind the last of
them; the nodes of a container are those on the path from its first link to no link at all. -/

namespace OrderedAtomics

/-- Following `next` from a link visits the given nodes and then finds the link `stop`. -/
def Path (next : Nat → Option Nat) : Option Nat → List Nat → Option Nat → Prop
  | start, [], stop => start = stop
  | start, i :: nodes, stop => start = some i ∧ Path next (next i) nodes stop

namespace Path

variable {next next' : Nat → Option Nat} {start stop : Option Nat} {nodes : List Nat}

theorem append {xs ys : List Nat} :
    Path next start (xs ++ ys) stop ↔ ∃ mid, Path next start xs mid ∧ Path next mid ys stop := by
  induction xs generalizing start with
  | nil => simp [Path]
  | cons i xs ih => simp [Path, ih, and_assoc]

/-- Links away from a path do not matter to it. -/
theorem congr (h : Path next start nodes stop) (same : ∀ i ∈ nodes, next' i = next i) :
    Path next' start nodes stop := by
  induction nodes generalizing start with
  | nil => exact h
  | cons i nodes ih =>
    obtain ⟨rfl, h⟩ := h
    refine ⟨rfl, ?_⟩
    rw [same i (by simp)]
    exact ih h fun j hj => same j (by simp [hj])

/-- Only one walk ends in no link. -/
theorem unique {nodes' : List Nat} (h : Path next start nodes none)
    (h' : Path next start nodes' none) : nodes = nodes' := by
  induction nodes generalizing start nodes' with
  | nil =>
    cases nodes' with
    | nil => rfl
    | cons j nodes' => obtain rfl := h; cases h'.1
  | cons i nodes ih =>
    obtain ⟨rfl, h⟩ := h
    cases nodes' with
    | nil => cases h'
    | cons j nodes' =>
      obtain ⟨e, h'⟩ := h'
      cases e
      rw [ih h h']

theorem eq_nil (h : Path next none nodes none) : nodes = [] := unique h rfl

theorem eq_cons {i : Nat} (h : Path next (some i) nodes none) :
    ∃ rest, nodes = i :: rest ∧ Path next (next i) rest none := by
  cases nodes with
  | nil => cases h
  | cons j rest =>
    obtain ⟨e, h⟩ := h
    cases e
    exact ⟨rest, rfl, h⟩

/-- The rest of a walk from one of its nodes on. -/
theorem split {i : Nat} (h : Path next start nodes stop) (hi : i ∈ nodes) :
    ∃ before after, nodes = before ++ i :: after ∧ Path next (next i) after stop := by
  obtain ⟨before, after, rfl⟩ := List.append_of_mem hi
  obtain ⟨mid, -, -, h⟩ := append.mp h
  exact ⟨before, after, rfl, h⟩

/-- Where a node on a walk to the end links to is on the walk as well. -/
theorem next_mem {i j : Nat} (h : Path next start nodes none) (hi : i ∈ nodes)
    (hj : next i = some j) : j ∈ nodes := by
  obtain ⟨before, after, rfl, ha⟩ := h.split hi
  rw [hj] at ha
  obtain ⟨rest, rfl, -⟩ := eq_cons ha
  simp

/-- A node without a link is the last one of a walk to the end. -/
theorem eq_concat {i : Nat} (h : Path next start nodes none) (hi : i ∈ nodes)
    (hn : next i = none) : ∃ before, nodes = before ++ [i] := by
  obtain ⟨before, after, rfl, ha⟩ := h.split hi
  rw [hn] at ha
  rw [eq_nil ha]
  exact ⟨before, rfl⟩

/-- A walk does not come back: after a node without a link there would be nothing. -/
theorem nodup (h : Path next start nodes none) : nodes.Nodup := by
  induction nodes generalizing start with
  | nil => simp
  | cons i nodes ih =>
    obtain ⟨rfl, h⟩ := h
    refine List.nodup_cons.mpr ⟨fun hi => ?_, ih h⟩
    obtain ⟨before, after, e, h'⟩ := h.split hi
    have := congrArg List.length (unique h h')
    simp [e] at this
    omega

/-- The last node of a walk gets a link to a node that has none. -/
theorem concat {last new : Nat} {before : List Nat} (h : Path next start (before ++ [last]) none)
    (same : ∀ i ∈ before, next' i = next i) (hl : next' last = some new) (hn : next' new = none) :
    Path next' start (before ++ [last, new]) none := by
  obtain ⟨mid, h, e, -⟩ := append.mp h
  exact append.mpr ⟨mid, h.congr same, e, hl, hn⟩

end Path

end OrderedAtomics
