import Mathlib.Data.List.Induction
import Mathlib.Data.List.Nodup
import Mathlib.Data.String.Basic
import OrderedAtomics.Benchmark.Collect

/-! Tables in the order of their names, and the results that measurements make when they are added one
after the other. Results are the same if they have the same rates. -/

namespace OrderedAtomics.Benchmark

/-! ### Tables -/

namespace Table

variable {α : Type} {t t' : Table α} {name key : String} {v : α}

def names (t : Table α) : List String := t.map (·.1)

theorem mem_names : name ∈ t.names ↔ ∃ v, (name, v) ∈ t := by
  constructor
  · intro h
    obtain ⟨⟨_, v⟩, among, rfl⟩ := List.mem_map.mp h
    exact ⟨v, among⟩
  · rintro ⟨v, among⟩
    exact List.mem_map_of_mem among

theorem get?_cons (t : Table α) (key : String) (v : α) (name : String) :
    get? ((key, v) :: t) name = if key = name then some v else t.get? name := by
  by_cases h : key = name <;> simp [get?, h]

theorem mem_of_get? (h : t.get? name = some v) : (name, v) ∈ t := by
  obtain ⟨⟨key, v'⟩, found, rfl⟩ := Option.map_eq_some_iff.mp h
  have same : key = name := by simpa using List.find?_some found
  exact same ▸ List.mem_of_find?_eq_some found

theorem get?_eq_none_iff : t.get? name = none ↔ name ∉ t.names := by
  induction t with
  | nil => exact iff_of_true rfl List.not_mem_nil
  | cons e t ih =>
    rw [get?_cons t e.1 e.2, names, List.map_cons, List.mem_cons]
    split_ifs with here
    · exact iff_of_false nofun fun other => other (.inl here.symm)
    · exact ih.trans ⟨fun h => not_or.mpr ⟨Ne.symm here, h⟩, fun h => (not_or.mp h).2⟩

theorem isSome_get? : (t.get? name).isSome ↔ name ∈ t.names := by
  rw [← Option.ne_none_iff_isSome, ne_eq, get?_eq_none_iff, not_not]

/-- Where every name stands once, there is one value of a name. -/
theorem eq_of_mem {v' : α} (once : t.names.Nodup) (h : (name, v) ∈ t) (h' : (name, v') ∈ t) : v = v' :=
  (Prod.mk.inj (List.inj_on_of_nodup_map once h h' rfl)).2

theorem get?_of_mem (once : t.names.Nodup) (h : (name, v) ∈ t) : t.get? name = some v := by
  obtain ⟨v', found⟩ := Option.isSome_iff_exists.mp (isSome_get?.mpr (mem_names.mpr ⟨v, h⟩))
  rw [found, eq_of_mem once (mem_of_get? found) h]

theorem get?_filter (selected : String → Bool) (t : Table α) (name : String) :
    get? (t.filter fun e => selected e.1) name = if selected name then t.get? name else none := by
  induction t with
  | nil => exact (ite_self none).symm
  | cons e t ih =>
    rw [List.filter_cons, get?_cons t e.1 e.2]
    by_cases here : e.1 = name
    · subst here
      by_cases kept : selected e.1
      · rw [if_pos kept, if_pos kept, if_pos rfl]
        exact (get?_cons _ e.1 e.2 e.1).trans (if_pos rfl)
      · rw [if_neg kept, ih]
        simp only [if_neg kept]
    · rw [if_neg here, ← ih]
      split_ifs
      · exact (get?_cons _ e.1 e.2 name).trans (if_neg here)
      · rfl

theorem get?_map {β : Type} (f : α → β) (t : Table α) (name : String) :
    get? (t.map fun e => (e.1, f e.2)) name = (t.get? name).map f := by
  induction t with
  | nil => rfl
  | cons e t ih =>
    rw [List.map_cons, get?_cons, get?_cons t e.1 e.2, ih]
    split_ifs <;> rfl

/-- The names ascend, so that each stands once. -/
def Sorted (t : Table α) : Prop := t.names.Pairwise (· < ·)

theorem names_cons (e : String × α) (t : Table α) : names (e :: t) = e.1 :: t.names := rfl

theorem mem_names_alter {f : Option α → α} :
    name ∈ (t.alter key f).names ↔ name = key ∨ name ∈ t.names := by
  fun_induction t.alter key f with
  | case1 => exact List.mem_cons
  | case2 v rest =>
    exact ⟨.inr, fun h => h.elim (fun same => same ▸ List.mem_cons_self) id⟩
  | case3 => exact List.mem_cons
  | case4 first v rest _ _ ih =>
    rw [names_cons, names_cons, List.mem_cons, List.mem_cons, ih]
    tauto

namespace Sorted

theorem nodup (h : t.Sorted) : t.names.Nodup := List.Pairwise.imp (fun less => ne_of_lt less) h

theorem cons {e : String × α} : Sorted (e :: t) ↔ (∀ name ∈ t.names, e.1 < name) ∧ t.Sorted :=
  List.pairwise_cons

theorem get?_head {e : String × α} (h : Sorted (e :: t)) (before : name < e.1) :
    get? (e :: t) name = none := by
  rw [get?_eq_none_iff, names_cons, List.mem_cons]
  rintro (same | later)
  · exact ne_of_lt before same
  · exact lt_asymm before ((cons.mp h).1 name later)

theorem get?_alter (h : t.Sorted) (key : String) (f : Option α → α) (name : String) :
    (t.alter key f).get? name = if key = name then some (f (t.get? key)) else t.get? name := by
  fun_induction t.alter key f with
  | case1 => exact get?_cons [] key (f none) name
  | case2 v rest =>
    simp only [get?_cons, if_true]
    split_ifs <;> rfl
  | case3 first v rest other before =>
    rw [get?_cons, h.get?_head before]
  | case4 first v rest other after ih =>
    rw [get?_cons, get?_cons, get?_cons, ih (cons.mp h).2, if_neg other]
    split_ifs with here same
    · exact absurd (here.trans same.symm) other
    · rfl
    · rfl
    · rfl

theorem alter (h : t.Sorted) (key : String) (f : Option α → α) : (t.alter key f).Sorted := by
  fun_induction t.alter key f with
  | case1 => exact List.pairwise_singleton _ key
  | case2 v rest => exact h
  | case3 first v rest other before =>
    refine cons.mpr ⟨fun name among => ?_, h⟩
    rcases List.mem_cons.mp among with rfl | later
    · exact before
    · exact lt_trans before ((cons.mp h).1 name later)
  | case4 first v rest other after ih =>
    refine cons.mpr ⟨fun name among => ?_, ih (cons.mp h).2⟩
    rcases mem_names_alter.mp among with rfl | later
    · exact lt_of_le_of_ne (not_lt.mp after) other
    · exact (cons.mp h).1 name later

theorem filter (h : t.Sorted) (p : String × α → Bool) : Sorted (t.filter p) :=
  List.Pairwise.sublist (List.filter_sublist.map _) h

theorem map {β : Type} (h : t.Sorted) (f : α → β) : Sorted (t.map fun e => (e.1, f e.2)) := by
  have same : names (t.map fun e => (e.1, f e.2)) = t.names := List.map_map
  rw [Sorted, same]
  exact h

theorem get?_filter_value (h : t.Sorted) (p : α → Bool) (name : String) :
    get? (t.filter fun e => p e.2) name = (t.get? name).filter p := by
  cases found : get? (t.filter fun e => p e.2) name with
  | some v =>
    obtain ⟨listed, kept⟩ := List.mem_filter.mp (mem_of_get? found)
    rw [get?_of_mem h.nodup listed, Option.filter_some, if_pos kept]
  | none =>
    cases found' : t.get? name with
    | none => rfl
    | some v =>
      rw [Option.filter_some, if_neg fun kept => ?_]
      have listed : (name, v) ∈ t.filter fun e => p e.2 :=
        List.mem_filter.mpr ⟨mem_of_get? found', kept⟩
      exact get?_eq_none_iff.mp found (mem_names.mpr ⟨v, listed⟩)

theorem mem_iff (h : t.Sorted) {e : String × α} : e ∈ t ↔ t.get? e.1 = some e.2 :=
  ⟨get?_of_mem h.nodup, mem_of_get?⟩

/-- A sorted table is what is found in it. -/
theorem ext (h : t.Sorted) (h' : t'.Sorted) (same : ∀ name, t.get? name = t'.get? name) : t = t' := by
  have perm : t.Perm t' := by
    refine (List.perm_ext_iff_of_nodup (.of_map _ h.nodup) (.of_map _ h'.nodup)).mpr fun e => ?_
    rw [h.mem_iff, h'.mem_iff, same]
  refine perm.eq_of_pairwise (fun a b _ _ less greater => ?_) (List.pairwise_map.mp h)
    (List.pairwise_map.mp h')
  exact absurd greater (lt_asymm less)

end Sorted

end Table

/-! ### Results -/

namespace Results

open Table (Sorted)

variable {r r' : Results} {workload baseline : String}

/-- The rates of a workload, none if there is no such workload. -/
def rates (r : Results) (workload : String) : Table Double := (r.get? workload).getD []

def rate? (r : Results) (workload baseline : String) : Option Double :=
  (r.rates workload).get? baseline

/-- The names ascend on both levels, and every workload has a rate. -/
structure Proper (r : Results) : Prop where
  sorted : Sorted r
  inner : ∀ workload, (r.rates workload).Sorted
  filled : ∀ {workload}, r.get? workload ≠ some []

theorem proper_nil : Proper [] := ⟨.nil, fun _ => .nil, nofun⟩

namespace Proper

variable (h : r.Proper)
include h

theorem rates_add (m : Measurement) (workload : String) : (r.add m).rates workload =
    if m.workload = workload then (r.rates workload).insert m.baseline m.rate
    else r.rates workload := by
  rw [rates, add, h.sorted.get?_alter]
  split_ifs with here
  · exact here ▸ rfl
  · rfl

theorem rate?_add (m : Measurement) (workload baseline : String) :
    (r.add m).rate? workload baseline =
      if m.workload = workload ∧ m.baseline = baseline then some m.rate
      else r.rate? workload baseline := by
  rw [rate?, h.rates_add]
  by_cases here : m.workload = workload
  · simp only [here, if_true, true_and]
    exact (h.inner workload).get?_alter _ _ _
  · rw [if_neg here, if_neg (mt And.left here)]
    rfl

theorem add (m : Measurement) : (r.add m).Proper where
  sorted := h.sorted.alter _ _
  inner workload := by
    rw [h.rates_add]
    split_ifs
    · exact (h.inner workload).alter _ _
    · exact h.inner workload
  filled {workload} none := by
    rw [Results.add, h.sorted.get?_alter] at none
    split_ifs at none
    · have among : m.baseline ∈ (Table.insert (r.rates m.workload) m.baseline m.rate).names :=
        Table.mem_names_alter.mpr (.inl rfl)
      have gone : Table.insert (r.rates m.workload) m.baseline m.rate = [] := Option.some.inj none
      rw [gone] at among
      exact List.not_mem_nil among
    · exact h.filled none

theorem isSome_get? : (r.get? workload).isSome ↔ ∃ baseline, (r.rate? workload baseline).isSome := by
  unfold rate? rates
  cases found : r.get? workload with
  | none => exact iff_of_false Bool.false_ne_true nofun
  | some t =>
    cases t with
    | nil => exact absurd found h.filled
    | cons e t => exact iff_of_true rfl ⟨e.1, Table.isSome_get?.mpr List.mem_cons_self⟩

/-- Results are their rates. -/
theorem ext (h' : r'.Proper)
    (same : ∀ workload baseline, r.rate? workload baseline = r'.rate? workload baseline) : r = r' := by
  refine h.sorted.ext h'.sorted fun workload => ?_
  have rates : r.rates workload = r'.rates workload :=
    (h.inner workload).ext (h'.inner workload) (same workload)
  have there : (r.get? workload).isSome = (r'.get? workload).isSome := by
    rw [Bool.eq_iff_iff, h.isSome_get?, h'.isSome_get?]
    simp only [same]
  unfold Results.rates at rates
  cases found : r.get? workload <;> cases found' : r'.get? workload <;>
    simp_all

end Proper

/-! ### Measurements added one after the other -/

/-- The results of some measurements. -/
def ofList (ms : List Measurement) : Results := ms.foldl add []

theorem proper_ofList (ms : List Measurement) : (ofList ms).Proper := by
  induction ms using List.reverseRecOn with
  | nil => exact proper_nil
  | append_singleton ms m ih =>
    rw [ofList, List.foldl_append]
    exact ih.add m

/-- The last measurement of a workload and a baseline is the one that stays. -/
theorem rate?_ofList (ms : List Measurement) (workload baseline : String) :
    (ofList ms).rate? workload baseline =
      (ms.reverse.find? fun m => m.workload = workload ∧ m.baseline = baseline).map (·.rate) := by
  induction ms using List.reverseRecOn with
  | nil => rfl
  | append_singleton ms m ih =>
    rw [ofList, List.foldl_append]
    refine ((proper_ofList ms).rate?_add m workload baseline).trans ?_
    rw [ih, List.reverse_append, List.reverse_singleton, List.singleton_append, List.find?_cons]
    by_cases here : m.workload = workload ∧ m.baseline = baseline <;> simp [here]

theorem exists_of_rate? {ms : List Measurement} {rate : Double}
    (found : (ofList ms).rate? workload baseline = some rate) : ⟨workload, baseline, rate⟩ ∈ ms := by
  rw [rate?_ofList] at found
  obtain ⟨m, last, rfl⟩ := Option.map_eq_some_iff.mp found
  obtain ⟨rfl, rfl⟩ : m.workload = workload ∧ m.baseline = baseline := by
    simpa using List.find?_some last
  exact List.mem_reverse.mp (List.mem_of_find?_eq_some last)

theorem isSome_rate? {ms : List Measurement} :
    ((ofList ms).rate? workload baseline).isSome ↔
      ∃ rate, ⟨workload, baseline, rate⟩ ∈ ms := by
  constructor
  · intro there
    obtain ⟨rate, found⟩ := Option.isSome_iff_exists.mp there
    exact ⟨rate, exists_of_rate? found⟩
  · rintro ⟨rate, among⟩
    rw [rate?_ofList, Option.isSome_map, List.find?_isSome]
    exact ⟨_, List.mem_reverse.mpr among, by simp⟩

end Results

end OrderedAtomics.Benchmark
