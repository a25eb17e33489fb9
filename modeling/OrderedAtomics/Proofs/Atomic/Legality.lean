import OrderedAtomics.Atomic.Flag
import OrderedAtomics.Atomic.Pointer
import OrderedAtomics.Atomic.Selected
import OrderedAtomics.Proofs.Atomic.FetchUpdate
import OrderedAtomics.Proofs.Cell.Machines
import OrderedAtomics.Proofs.Refusal

/-! Orders that an operation may not carry. They are refused before anything else happens, and what is not
refused never comes to a primitive with an order that the hardware does not have. -/

namespace OrderedAtomics

/-! ### Accesses -/

namespace Access

variable {σ β γ : Type}

/-- In every state the access is refused, and leaves the state as it is. -/
def Refused (a : Access σ β) (fault : Fault) : Prop := ∀ s, a s = .error fault s

/-- In every state the access ends with an answer. -/
def Answered (a : Access σ β) : Prop := ∀ s, ∃ r s', a s = .ok r s'

theorem Refused.bind {a : Access σ β} {fault : Fault} (h : a.Refused fault) (f : β → Access σ γ) :
    (a >>= f).Refused fault := fun s => bind_error (h s) f

theorem answered_pure (r : β) : (pure r : Access σ β).Answered := fun s => ⟨r, s, rfl⟩

theorem Answered.bind {a : Access σ β} {f : β → Access σ γ} (h : a.Answered)
    (hf : ∀ r, (f r).Answered) : (a >>= f).Answered := by
  intro s
  obtain ⟨r, s₁, ended⟩ := h s
  obtain ⟨r', s', ended'⟩ := hf r s₁
  exact ⟨r', s', (Access.bind_ok ended).trans ended'⟩

theorem Answered.map {a : Access σ β} (h : a.Answered) (g : β → γ) :
    (do return g (← a) : Access σ γ).Answered := h.bind fun r => answered_pure (g r)

end Access

open Access (Refused Answered)

theorem Site.Prompt.answered {V β : Type} {takes : Admission} {single : Prop} {a : Access (Cell V) β}
    (h : (Site.plain takes single).Prompt a) : a.Answered := by
  intro c
  obtain ⟨r, c', -, ended, -⟩ := h c trivial
  exact ⟨r, c', ended⟩

/-! ### Orders of a call -/

namespace Atomic

variable {σ T W κ : Type} {w : Nat}

/-- Whether a load with the order has something to release, or a store something to acquire, or a
compare-exchange a failure order that its success order does not admit. -/
def Call.illegal : Call T → Bool
  | .load o | .fetchUpdate _ o _ => o == .release || o == .acqRel
  | .store _ o => o == .consume || o == .acquire || o == .acqRel
  | .cas _ _ _ orders | .compareExchange _ _ _ orders => !decide orders.Legal
  | .exchange .. | .get | .set _ | .isLockFree => false

theorem illegalLoad_eq (o : MemoryOrder) : (o == .release || o == .acqRel) = !o.legalForLoad := by
  cases o <;> rfl

theorem illegalStore_eq (o : MemoryOrder) :
    (o == .consume || o == .acquire || o == .acqRel) = !o.legalForStore := by
  cases o <;> rfl

/-- A compare-exchange by a caller who keeps what it expects in a variable of its own. -/
def casAt (a : Atomic σ T W) (strength : Strength) (desired : T) (orders : CasOrders) :
    Access (σ × T) Bool :=
  Access.compared fun expected => a.cas strength expected desired orders

/-! ### Illegal orders -/

section Refusals

variable (a : Atomic σ T W)

theorem refused_load {o : MemoryOrder} (illegal : o.legalForLoad = false) :
    (a.load o).Refused (.loadOrder o) := by
  rw [a.load_of_illegal illegal]
  exact fun _ => rfl

theorem refused_store {o : MemoryOrder} (illegal : o.legalForStore = false) (v : T) :
    (a.store v o).Refused (.storeOrder o) := by
  rw [a.store_of_illegal illegal]
  exact fun _ => rfl

theorem refused_cas {orders : CasOrders} (illegal : ¬orders.Legal) (k : Strength) (e d : T) :
    (a.cas k e d orders).Refused (.failureOrder orders.failure orders.success) := by
  rw [a.cas_of_illegal illegal]
  exact fun _ => rfl

theorem refused_casAt {orders : CasOrders} (illegal : ¬orders.Legal) (k : Strength) (d : T) :
    (a.casAt k d orders).Refused (.failureOrder orders.failure orders.success) := by
  rintro ⟨s, expected⟩
  exact Access.compared_error (a.refused_cas illegal k expected d s)

/-- Whatever the closure of a fetch-and-update is, it is not called. -/
theorem refused_fetchUpdate {fetchOrder : MemoryOrder} (illegal : fetchOrder.legalForLoad = false)
    (setOrder : MemoryOrder) (closure : κ → T → Access σ (κ × Option T)) (rounds : Nat) (k : κ) :
    (a.fetchUpdate setOrder fetchOrder closure rounds k).Refused (.loadOrder fetchOrder) :=
  (a.refused_load illegal).bind _

theorem refused_perform {c : Call T} (illegal : c.illegal = true) :
    ∃ fault, (a.perform c).Refused fault := by
  have load {o : MemoryOrder} (h : (o == .release || o == .acqRel) = true) :
      o.legalForLoad = false := by
    rw [illegalLoad_eq, Bool.not_eq_true'] at h
    exact h
  cases c with
  | load o => exact ⟨_, (a.refused_load (load illegal)).bind _⟩
  | store v o =>
    rw [Call.illegal, illegalStore_eq, Bool.not_eq_true'] at illegal
    exact ⟨_, (a.refused_store illegal v).bind _⟩
  | cas k e d orders =>
    rw [Call.illegal, Bool.not_eq_true', decide_eq_false_iff_not] at illegal
    exact ⟨_, (a.refused_cas illegal k e d).bind _⟩
  | compareExchange k e d orders =>
    rw [Call.illegal, Bool.not_eq_true', decide_eq_false_iff_not] at illegal
    exact ⟨_, ((a.refused_cas illegal k e d).bind _).bind _⟩
  | fetchUpdate s f attempts =>
    exact ⟨_, ((a.refused_fetchUpdate (load illegal) s _ _ _).bind _).bind _⟩
  | exchange | get | set | isLockFree => cases illegal

end Refusals

/-! ### Legal orders -/

/-- The typed atomics on words of the platform and on double words. -/
inductive OnHardware : {w : Nat} → {T : Type} → Atomic (Cell (BitVec w)) T (BitVec w) → Prop
  | word {w : Nat} {T : Type} (carrier : Carrier T (BitVec w)) : OnHardware (selected carrier)
  | pair {w : Nat} {T : Type} (carrier : Carrier T (BitVec w)) {lockFree : Bool} :
    OnHardware ⟨DoubleSwap.machine Native.strict lockFree, carrier⟩

theorem OnHardware.prompt {a : Atomic (Cell (BitVec w)) T (BitVec w)} (h : a.OnHardware) :
    a.ops.Prompt (.plain .hardware True : Site _ (BitVec w)) := by
  cases h with
  | word carrier => exact (TotalStore.prompt Native.strict_allows).toExchange
  | pair carrier => exact DoubleSwap.prompt Native.strict_allows _

namespace OnHardware

variable {a : Atomic (Cell (BitVec w)) T (BitVec w)} (h : a.OnHardware)
include h

theorem answered_load {o : MemoryOrder} (legal : o.legalForLoad) : (a.load o).Answered := by
  rw [a.load_of_legal legal]
  exact (h.prompt.load legal).answered.map a.carrier.ofWord

theorem answered_store {o : MemoryOrder} (legal : o.legalForStore) (v : T) :
    (a.store v o).Answered := by
  rw [a.store_of_legal legal]
  exact (h.prompt.store legal (a.carrier.toWord v)).answered

theorem answered_exchange (v : T) (o : MemoryOrder) : (a.exchange v o).Answered :=
  (h.prompt.exchange (a.carrier.toWord v) o).answered.map a.carrier.ofWord

theorem answered_cas {orders : CasOrders} (legal : orders.Legal) (k : Strength) (e d : T) :
    (a.cas k e d orders).Answered := by
  have failure := legalForLoad_of_legal legal
  rw [a.cas_of_legal legal]
  cases k with
  | weak => exact (h.prompt.casWeak failure _ _ _).answered.map _
  | strong => exact (h.prompt.casStrong failure _ _ _).answered.map _

theorem answered_casAt {orders : CasOrders} (legal : orders.Legal) (k : Strength) (d : T) :
    (a.casAt k d orders).Answered := by
  rintro ⟨s, expected⟩
  obtain ⟨outcome, s', ended⟩ := h.answered_cas legal k expected d s
  exact ⟨outcome.stored, (s', outcome.expected), Access.compared_ok ended⟩

omit h in
/-- One round of a fetch-and-update in which the closure asks for a value. -/
theorem updateRounds_asked {orders : CasOrders} {closure : κ → T → Access σ (κ × Option T)}
    {a : Atomic σ T W} {rounds : Nat} {k k' : κ} {shown next : T} {s s₁ s₂ : σ}
    {outcome : CasOutcome T} (visited : closure k shown s = .ok (k', some next) s₁)
    (swapped : a.cas .weak shown next orders s₁ = .ok outcome s₂) :
    a.updateRounds orders closure (rounds + 1) k shown s =
      if outcome.stored then .ok (k', .ok shown) s₂
      else a.updateRounds orders closure rounds k' outcome.expected s₂ := by
  refine (Access.bind_ok visited).trans ((Access.bind_ok swapped).trans ?_)
  cases outcome.stored <;> rfl

/-- The rounds of a fetch-and-update end, unless the closure itself faults or goes on for ever. -/
theorem faults_updateRounds {orders : CasOrders} (legal : orders.Legal)
    {closure : κ → T → Access (Cell (BitVec w)) (κ × Option T)} {rounds : Nat} {k : κ} {shown : T}
    {s s' : Cell (BitVec w)} {fault : Fault}
    (stopped : a.updateRounds orders closure rounds k shown s = .error fault s') :
    fault = .unfinished ∨ ∃ k shown s, closure k shown s = .error fault s' := by
  induction rounds generalizing k shown s with
  | zero =>
    cases stopped
    exact .inl rfl
  | succ rounds ih =>
    cases visited : closure k shown s with
    | error fault' s₁ =>
      have same : a.updateRounds orders closure (rounds + 1) k shown s = .error fault' s₁ := by
        rw [updateRounds]
        exact Access.bind_error visited _
      cases same.symm.trans stopped
      exact .inr ⟨k, shown, s, visited⟩
    | ok next s₁ =>
      obtain ⟨k', _ | next⟩ := next
      · cases (Access.bind_ok visited).symm.trans stopped
      · obtain ⟨outcome, s₂, swapped⟩ := h.answered_cas legal .weak shown next s₁
        rw [updateRounds_asked visited swapped] at stopped
        split at stopped
        · cases stopped
        · exact ih stopped

theorem faults_fetchUpdate {setOrder fetchOrder : MemoryOrder} (legal : fetchOrder.legalForLoad)
    {closure : κ → T → Access (Cell (BitVec w)) (κ × Option T)} {rounds : Nat} {k : κ}
    {s s' : Cell (BitVec w)} {fault : Fault}
    (stopped : a.fetchUpdate setOrder fetchOrder closure rounds k s = .error fault s') :
    fault = .unfinished ∨ ∃ k shown s, closure k shown s = .error fault s' := by
  obtain ⟨shown, s₁, loaded⟩ := h.answered_load legal s
  exact h.faults_updateRounds (updateOrders_legal setOrder fetchOrder)
    ((Access.bind_ok loaded).symm.trans stopped)

theorem answered_follow (attempt : Attempt T) (rest : List (Attempt T)) (seen : List T) (shown : T)
    (s : Cell (BitVec w)) : ∃ s', a.follow (attempt :: rest, seen) shown s =
      .ok ((rest, seen ++ [shown]), attempt.next) s' := by
  obtain ⟨_ | v, next⟩ := attempt
  · exact ⟨s, rfl⟩
  · obtain ⟨⟨⟩, s', stored⟩ := h.answered_store (o := .relaxed) rfl v s
    exact ⟨s', Access.bind_ok stored⟩

/-- A list of attempts has fewer of them than there are rounds. -/
theorem answered_updateRounds {orders : CasOrders} (legal : orders.Legal)
    (attempts : List (Attempt T)) (seen : List T) (shown : T) :
    (a.updateRounds orders a.follow (attempts.length + 1) (attempts, seen) shown).Answered := by
  induction attempts generalizing seen shown with
  | nil => exact fun s => ⟨_, s, rfl⟩
  | cons attempt rest ih =>
    intro s
    obtain ⟨s₁, visited⟩ := h.answered_follow attempt rest seen shown s
    cases asked : attempt.next with
    | none =>
      rw [asked] at visited
      exact ⟨_, s₁, Access.bind_ok visited⟩
    | some next =>
      rw [asked] at visited
      obtain ⟨outcome, s₂, swapped⟩ := h.answered_cas legal .weak shown next s₁
      rw [List.length_cons, updateRounds_asked visited swapped]
      split
      · exact ⟨_, s₂, rfl⟩
      · exact ih (seen ++ [shown]) outcome.expected s₂

theorem answered_fetchUpdateWith {fetchOrder : MemoryOrder} (legal : fetchOrder.legalForLoad)
    (setOrder : MemoryOrder) (attempts : List (Attempt T)) :
    (a.fetchUpdateWith setOrder fetchOrder attempts).Answered :=
  ((h.answered_load legal).bind fun shown =>
    h.answered_updateRounds (updateOrders_legal setOrder fetchOrder) attempts [] shown).map _

theorem answered_perform {c : Call T} (legal : c.illegal = false) : (a.perform c).Answered := by
  have load {o : MemoryOrder} (h : (o == .release || o == .acqRel) = false) : o.legalForLoad := by
    rw [illegalLoad_eq, Bool.not_eq_false'] at h
    exact h
  cases c with
  | load o => exact (h.answered_load (load legal)).map Reply.value
  | store v o =>
    rw [Call.illegal, illegalStore_eq, Bool.not_eq_false'] at legal
    exact (h.answered_store legal v).map fun _ => Reply.done
  | exchange v o => exact (h.answered_exchange v o).map Reply.value
  | cas k e d orders =>
    rw [Call.illegal, Bool.not_eq_false', decide_eq_true_iff] at legal
    exact (h.answered_cas legal k e d).map Reply.outcome
  | compareExchange k e d orders =>
    rw [Call.illegal, Bool.not_eq_false', decide_eq_true_iff] at legal
    exact ((h.answered_cas legal k e d).map _).map Reply.result
  | get => exact (h.answered_load (o := .seqCst) rfl).map Reply.value
  | set v => exact (h.answered_store (o := .seqCst) rfl v).map fun _ => Reply.done
  | isLockFree => exact h.prompt.isLockFree.answered.map Reply.truth
  | fetchUpdate s f attempts => exact (h.answered_fetchUpdateWith (load legal) s attempts).map _

end OnHardware

end Atomic

/-! ### Objects -/

namespace AtomicFlag

/-- A flag is cleared by a store. -/
def Call.illegal : Call → Bool
  | .clear o => o == .consume || o == .acquire || o == .acqRel
  | .testAndSet _ | .isLockFree => false

end AtomicFlag

namespace AtomicTaggedPointer

def Call.illegal : Call → Bool
  | .basic c => c.illegal
  | .compareAndSwap .. | .compareAndSwapPointer .. => false

end AtomicTaggedPointer

/-- Calls that may have an illegal order are refused if they do, with the state as it was, and answered
otherwise. -/
structure Checked {σ C R : Type} (perform : C → Access σ R) (illegal : C → Bool) : Prop where
  refused : ∀ c, illegal c = true → ∃ fault, (perform c).Refused fault
  answered : ∀ c, illegal c = false → (perform c).Answered

/-- The objects on words of the platform and on double words, by the calls that they take: typed atomics,
what a caller expects of them included, integers, truth values, flags and tagged pointers. The calls on a
state may be mixed. -/
inductive Offers : {σ C R : Type} → (C → Access σ R) → (C → Bool) → Prop
  | basic {w : Nat} {T : Type} {a : Atomic (Cell (BitVec w)) T (BitVec w)} (h : a.OnHardware) :
    Offers a.perform Atomic.Call.illegal
  | expecting {w : Nat} {T : Type} {a : Atomic (Cell (BitVec w)) T (BitVec w)} (h : a.OnHardware) :
    Offers (fun c : Strength × T × CasOrders => a.casAt c.1 c.2.1 c.2.2) fun c => !decide c.2.2.Legal
  | final {w : Nat} {T : Type} {a : Atomic (Cell (BitVec w)) T (BitVec w)} (h : a.OnHardware) :
    Offers (fun _ : Unit => a.final) fun _ => false
  | integer (k : Kind) : Offers (AtomicInteger.selected k).perform fun _ => false
  | truth : Offers (AtomicBool.perform (Atomic.selected .bool)) fun _ => false
  | flag : Offers AtomicFlag.perform AtomicFlag.Call.illegal
  | taggedPointer (lockFree : Bool) :
    Offers (AtomicTaggedPointer.perform lockFree) AtomicTaggedPointer.Call.illegal
  | either {σ C C' R R' : Type} {perform : C → Access σ R} {perform' : C' → Access σ R'}
      {illegal : C → Bool} {illegal' : C' → Bool} (h : Offers perform illegal)
      (h' : Offers perform' illegal') :
    Offers (fun c : C ⊕ C' => (match c with
      | .inl c => do return .inl (← perform c)
      | .inr c => do return .inr (← perform' c) : Access σ (R ⊕ R'))) (Sum.elim illegal illegal')

theorem AtomicFlag.onHardware : atomic.OnHardware := .word (.scalar wordKind)

theorem AtomicTaggedPointer.onHardware (lockFree : Bool) : (atomic lockFree).OnHardware :=
  .pair .taggedPointer

theorem AtomicInteger.answered_perform (k : Kind) (c : Call (Scalar k)) :
    ((selected k).perform c).Answered := by
  have prompt : (Cell.totalStore Native.strict).Prompt (.plain .hardware True : Site _ (BitVec k.width)) :=
    TotalStore.prompt Native.strict_allows
  have modify (u : Update) (v : BitVec k.width) (y : Yield) (o : MemoryOrder) :
      ((Cell.totalStore Native.strict).modify u v y o).Answered :=
    Site.Prompt.answered (prompt.acts.modify u v y o)
  cases c with
  | fetch u v o => exact (modify u v.bits .previous o).map _
  | apply u v => exact (modify u v.bits .updated .seqCst).map _
  | increment y => exact (modify .add 1 y .seqCst).map _
  | decrement y => exact (modify .sub 1 y .seqCst).map _

theorem AtomicBool.answered_perform {a : Atomic (Cell (BitVec 8)) Bool (BitVec 8)} (h : a.OnHardware)
    (c : Call) : (perform a c).Answered := by
  cases c with
  | trySet o => exact (h.answered_cas (CasOrders.legal_ofSuccess o) .strong false true).map _
  | fetchSet o => exact h.answered_exchange true o
  | fetchClear o => exact h.answered_exchange false o

theorem AtomicFlag.checked : Checked perform Call.illegal where
  refused c illegal := by
    cases c with
    | clear o =>
      rw [Call.illegal, Atomic.illegalStore_eq, Bool.not_eq_true'] at illegal
      exact ⟨_, (atomic.refused_store illegal _).bind _⟩
    | testAndSet | isLockFree => cases illegal
  answered c legal := by
    cases c with
    | testAndSet o => exact ((onHardware.answered_exchange _ o).map _).map _
    | clear o =>
      rw [Call.illegal, Atomic.illegalStore_eq, Bool.not_eq_false'] at legal
      exact (onHardware.answered_store legal _).map _
    | isLockFree => exact onHardware.prompt.isLockFree.answered.map _

theorem AtomicTaggedPointer.checked (lockFree : Bool) : Checked (perform lockFree) Call.illegal where
  refused c illegal := by
    cases c with
    | basic c => exact (atomic lockFree).refused_perform illegal
    | compareAndSwap | compareAndSwapPointer => cases illegal
  answered c legal := by
    have swap (old new : TaggedPointer) : (compareAndSwap old new).Answered :=
      ((onHardware true).answered_cas (CasOrders.legal_ofSuccess .seqCst) .strong old new).map _
    cases c with
    | basic c => exact (onHardware lockFree).answered_perform legal
    | compareAndSwap old new => exact (swap old new).map _
    | compareAndSwapPointer old p => exact (swap old (old.advance p)).map _

theorem Offers.checked {σ C R : Type} {perform : C → Access σ R} {illegal : C → Bool}
    (offers : Offers perform illegal) : Checked perform illegal := by
  induction offers with
  | basic h => exact ⟨fun c => Atomic.refused_perform _, fun c => h.answered_perform⟩
  | @expecting w T a h =>
    refine ⟨fun ⟨k, d, orders⟩ illegal => ?_, fun ⟨k, d, orders⟩ legal => ?_⟩
    · rw [Bool.not_eq_true', decide_eq_false_iff_not] at illegal
      exact ⟨_, a.refused_casAt illegal k d⟩
    · rw [Bool.not_eq_false', decide_eq_true_iff] at legal
      exact h.answered_casAt legal k d
  | final h => exact ⟨nofun, fun _ _ => h.answered_load (o := .relaxed) rfl⟩
  | integer k => exact ⟨nofun, fun c _ => AtomicInteger.answered_perform k c⟩
  | truth => exact ⟨nofun, fun c _ => AtomicBool.answered_perform (.word .bool) c⟩
  | flag => exact AtomicFlag.checked
  | taggedPointer lockFree => exact AtomicTaggedPointer.checked lockFree
  | either _ _ ih ih' =>
    refine ⟨fun c illegal => ?_, fun c legal => ?_⟩
    · cases c with
      | inl c =>
        obtain ⟨fault, refused⟩ := ih.refused c illegal
        exact ⟨fault, refused.bind _⟩
      | inr c =>
        obtain ⟨fault, refused⟩ := ih'.refused c illegal
        exact ⟨fault, refused.bind _⟩
    · cases c with
      | inl c => exact (ih.answered c legal).map _
      | inr c => exact (ih'.answered c legal).map _

/-- Calls in turn come to the same without those that have an illegal order. -/
theorem Checked.inTurn_legal {σ C R : Type} {perform : C → Access σ R} {illegal : C → Bool}
    (h : Checked perform illegal) (s : σ) (calls : List C) :
    let run := inTurn (fun s c => (perform c).outcome s) s
    run (calls.filter fun c => !illegal c) = ((run calls).1, (run calls).2.filter Except.isOk) := by
  have ends (s : σ) (c : C) : ((perform c).outcome s).2.isOk = !illegal c ∧
      (illegal c = true → ((perform c).outcome s).1 = s) := by
    cases known : illegal c with
    | true =>
      obtain ⟨fault, refused⟩ := h.refused c known
      rw [Access.outcome_error (refused s)]
      exact ⟨rfl, fun _ => rfl⟩
    | false =>
      obtain ⟨r, s', ended⟩ := h.answered c known s
      rw [Access.outcome_ok ended]
      exact ⟨rfl, nofun⟩
  intro run
  rw [← answered_inTurn (fun s c => (ends s c).1) calls s]
  refine inTurn_answered (fun s c refused => (ends s c).2 ?_) calls s
  rw [(ends s c).1, Bool.not_eq_false'] at refused
  exact refused

/-- A call ends with a fault exactly if it has an illegal order. It leaves everything as it was then, so
that a sequence of calls comes to the same without it, and the closure of a fetch-and-update is not called.
No other call comes to a fault of its own: at most a closure faults, or never has done. -/
theorem illegal_orders_refused_first :
    (∀ {σ C R : Type} {perform : C → Access σ R} {illegal : C → Bool}, Offers perform illegal →
      Checked perform illegal ∧ ∀ s calls,
        let run := inTurn (fun s c => (perform c).outcome s) s
        run (calls.filter fun c => !illegal c) =
          ((run calls).1, (run calls).2.filter Except.isOk)) ∧
    ∀ {w : Nat} {T κ : Type} {a : Atomic (Cell (BitVec w)) T (BitVec w)}, a.OnHardware →
      ∀ setOrder fetchOrder (closure : κ → T → Access _ (κ × Option T)) rounds k s,
        if fetchOrder = .release ∨ fetchOrder = .acqRel then
          a.fetchUpdate setOrder fetchOrder closure rounds k s = .error (.loadOrder fetchOrder) s
        else ∀ fault s', a.fetchUpdate setOrder fetchOrder closure rounds k s = .error fault s' →
          fault = .unfinished ∨ ∃ k shown s, closure k shown s = .error fault s' := by
  refine ⟨fun offers => ⟨offers.checked, offers.checked.inTurn_legal⟩, ?_⟩
  intro w T κ a h setOrder fetchOrder closure rounds k s
  split
  next illegal =>
    have illegal : fetchOrder.legalForLoad = false := by
      rcases illegal with rfl | rfl <;> rfl
    exact a.refused_fetchUpdate illegal setOrder closure rounds k s
  next legal =>
    have legal : fetchOrder.legalForLoad := by
      cases fetchOrder <;> first | rfl | exact absurd (by simp) legal
    exact fun fault s' => h.faults_fetchUpdate legal

/-- A flag that another thread is about to write, and a pair whose fetch-and-update has a closure that
faults. -/
theorem illegal_orders_refused_first_twice :
    let calls : List AtomicFlag.Call := [.clear .acquire, .testAndSet .acqRel, .clear .release]
    let run := inTurn (fun s c => (AtomicFlag.perform c).outcome s) ⟨1, [.overwrite 5], []⟩
    let closure (_ : Nat) (_ : TaggedPointer) :
        Access AtomicTaggedPointer.State (Nat × Option TaggedPointer) := throw .addOverflow
    let s := AtomicTaggedPointer.fresh .null
    Offers AtomicFlag.perform AtomicFlag.Call.illegal ∧ (AtomicTaggedPointer.atomic false).OnHardware ∧
      run [.testAndSet .acqRel, .clear .release] = ((run calls).1, (run calls).2.filter Except.isOk) ∧
      (AtomicTaggedPointer.atomic false).fetchUpdate .seqCst .acqRel closure 3 0 s =
        .error (.loadOrder .acqRel) s := by
  intro calls run closure s
  have offers : Offers AtomicFlag.perform AtomicFlag.Call.illegal := .flag
  have hardware : (AtomicTaggedPointer.atomic false).OnHardware := .pair .taggedPointer
  obtain ⟨-, legal⟩ := illegal_orders_refused_first.1 offers
  exact ⟨offers, hardware, legal _ calls,
    illegal_orders_refused_first.2 hardware .seqCst .acqRel closure 3 0 s⟩

end OrderedAtomics
