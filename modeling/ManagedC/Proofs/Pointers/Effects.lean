import ManagedC.Proofs.Pointers.Settings

/-!
# Expressions with side effects

The code of an expression that changes variables or memory leaves a value and an effect, or an instruction
faults, of the code itself or of a method that it calls (`Setting.Ends`). What is known of expressions without
side effects holds of such runs as well (`Setting.within`). Main statements: how a value is stored in a variable
(`Setting.Has.ends_assign`) and through an address (`Setting.Has.ends_storing`).
-/

namespace ManagedC

/-! ## Runs that change memory -/

/-- What cannot be stored is a fault. -/
theorem Activation.faultsNext_store {store : Store} {a : Activation} {type : TargetType} {u v : Value}
    {rest : List Value} {f : Fault} (ha : a.stack = v :: u :: rest)
    (hv : (u.asPointer >>= fun p => store.heap.store p type v) = .error f)
    (hi : a.instruction? = some (.store type)) : a.FaultsNext store f.kind := by
  have hpop : a.pop = .ok (v, { a with stack := u :: rest }) := pop_eq_ok.2 ⟨_, ha, rfl⟩
  have hpop' : { a with stack := u :: rest }.pop = .ok (u, { a with stack := rest }) := pop_eq_ok.2 ⟨_, rfl, rfl⟩
  refine ⟨.store type, f, hi, rfl, ?_, rfl⟩
  simp only [execute, Fails.bind_iff, Access.fails_ofExcept, Access.yields_ofExcept, Access.fails_update]
  refine .inr ⟨_, store, ⟨hpop, rfl⟩, .inr ⟨_, store, ⟨hpop', rfl⟩, ?_⟩⟩
  rcases Except.bind_eq_error.1 hv with hp | ⟨p, hp, hstore⟩
  · exact .inl ⟨hp, rfl⟩
  · exact .inr ⟨p, store, ⟨hp, rfl⟩, .inl ⟨hstore, rfl⟩⟩

/-- Where an expression is evaluated: by a call for which others wait, when so many may be in progress. -/
structure Stage where
  /-- How many calls may be in progress. -/
  depth : Nat
  /-- The calls that wait. -/
  callers : List Activation

/-- What an expression leaves. -/
structure Effect where
  /-- Its value. -/
  value : Value
  /-- The values of the variables. -/
  kept? : Slot → Option Value
  /-- Memory. -/
  store : Store

namespace Stage

variable {S : Stage} {program : Module} {s t u : Store} {a b c : Activation} {kind : Fault.Kind}

/-- A call comes from one state to another, if so many steps may be made. -/
def Leads (S : Stage) (program : Module) (s : Store) (a : Activation) (t : Store) (b : Activation) :
    Prop :=
  ∃ n, ∀ limit steps, steps + n ≤ limit → Run.Leads program ⟨limit, S.depth⟩ ⟨s, steps, a, S.callers⟩
    ⟨t, steps + n, b, S.callers⟩

/-- A call comes to an instruction that faults, of its own or of a call that it makes, if so many steps may be
made. -/
def Faults (S : Stage) (program : Module) (s : Store) (a : Activation) (kind : Fault.Kind) : Prop :=
  ∃ n, ∀ limit steps, steps + n < limit → ∃ r c t,
    Run.Leads program ⟨limit, S.depth⟩ ⟨s, steps, a, S.callers⟩ r ∧ r.steps = steps + n ∧
      r.step program ⟨limit, S.depth⟩ = Run.raise t (r.steps + 1) c r.current r.callers ∧
      c.fault.kind = kind

theorem Leads.trans (h : S.Leads program s a t b) (h' : S.Leads program t b u c) :
    S.Leads program s a u c := by
  obtain ⟨n, h⟩ := h
  obtain ⟨n', h'⟩ := h'
  refine ⟨n + n', ?_⟩
  intro limit steps hsteps
  have hfirst := h limit steps (by omega)
  have hsecond := h' limit (steps + n) (by omega)
  rw [Nat.add_assoc] at hsecond
  exact hfirst.trans hsecond

theorem Leads.faults (h : S.Leads program s a t b) (h' : S.Faults program t b kind) :
    S.Faults program s a kind := by
  obtain ⟨n, h⟩ := h
  obtain ⟨n', h'⟩ := h'
  refine ⟨n + n', ?_⟩
  intro limit steps hsteps
  obtain ⟨r, c, u, hleads, hr, hstep, hkind⟩ := h' limit (steps + n) (by omega)
  exact ⟨r, c, u, (h limit steps (by omega)).trans hleads, by omega, hstep, hkind⟩

theorem leads_of_runsTo (h : a.RunsTo program s b) : S.Leads program s a s b := by
  obtain ⟨n, h⟩ := h
  refine ⟨n, ?_⟩
  intro limit steps hsteps
  exact h ⟨limit, S.depth⟩ steps S.callers hsteps

/-- An instruction is executed. -/
theorem leads_of_executes {i : Instruction} (hi : a.instruction? = some i) (hcontrol : i.isControl = false)
    (h : a.Executes s i b t) : S.Leads program s a t b := by
  refine ⟨1, ?_⟩
  intro limit steps hsteps
  exact .single trivial (.executed (r := ⟨s, steps, a, S.callers⟩) hsteps hi hcontrol h)

theorem faults_of_faultsNext (h : a.FaultsNext s kind) : S.Faults program s a kind := by
  refine ⟨0, ?_⟩
  intro limit steps hsteps
  obtain ⟨f, hkind, hstep⟩ : ∃ f, f.kind = kind ∧
      Run.step program ⟨limit, S.depth⟩ ⟨s, steps, a, S.callers⟩ =
        Run.raise s (steps + 1) (a.crash f) a S.callers := h.step hsteps
  exact ⟨_, a.crash f, s, .refl, rfl, hstep, hkind⟩

end Stage

namespace Setting

variable {E : Setting} {S : Stage} {u t : Scope} {a b : Activation} {rest rest' : List Value} {v w p : Value}
  {stored : TargetType}

/-- What becomes of a call that begins with code that ends in a scope: the code leaves a value on top of
some others, and variables and memory as told, or an instruction faults. -/
def Ends (E : Setting) (S : Stage) (a : Activation) (t : Scope) (rest : List Value) :
    Except Fault.Kind Effect → Prop
  | .ok e => ∃ b, S.Leads E.program E.store a e.store b ∧
      Has { E with kept? := e.kept?, store := e.store } t b ∧ b.method = a.method ∧ b.stack = e.value :: rest
  | .error kind => S.Faults E.program E.store a kind

/-- A value is left, and nothing else changes. -/
def unchanged (E : Setting) (v : Value) : Effect := ⟨v, E.kept?, E.store⟩

theorem Ends.after {outcome : Except Fault.Kind Effect} (hab : S.Leads E.program E.store a E.store b)
    (hmethod : b.method = a.method) (h : E.Ends S b t rest outcome) : E.Ends S a t rest outcome := by
  cases outcome with
  | error kind => exact hab.faults h
  | ok e =>
    obtain ⟨c, hbc, hc, hmethod', hstack⟩ := h
    exact ⟨c, hab.trans hbc, hc, hmethod'.trans hmethod, hstack⟩

/-- What comes behind code without side effects begins with its value. -/
theorem Ends.bind {first : Except Fault.Kind Value} {next : Value → Except Fault.Kind Effect}
    (h : E.Ends S a u rest (first.map E.unchanged))
    (hnext : ∀ v b, first = .ok v → E.Has u b → b.method = a.method → b.stack = v :: rest →
      E.Ends S b t rest' (next v)) : E.Ends S a t rest' (first >>= next) := by
  cases first with
  | error kind => exact h
  | ok v =>
    obtain ⟨b, hab, hb, hmethod, hstack⟩ := h
    exact .after hab hmethod (hnext v b rfl hb hmethod hstack)

theorem id_ok (v : Value) : id (.ok v : Except Fault.Kind Value) = .ok v := rfl

/-- A value or a fault, in the call itself or in a call that it makes. -/
def within (E : Setting) (S : Stage) : E.Course Fault.Kind where
  Meets a t rest outcome := E.Ends S a t rest (outcome.map E.unchanged)
  lift := id
  lift_ok := id_ok
  computes {a t rest outcome} h := by
    cases outcome with
    | error kind =>
      obtain ⟨b, hab, -, hfaults⟩ := h
      exact (Stage.leads_of_runsTo hab).faults (Stage.faults_of_faultsNext hfaults)
    | ok v =>
      obtain ⟨b, hab, hb, hsame, hstack⟩ := h
      exact ⟨b, Stage.leads_of_runsTo hab, hb, hsame.method, hstack⟩
  after hab hsame h := .after (Stage.leads_of_runsTo hab) hsame.method h
  bind {_ _ _ _ _ first _} h hnext := by
    cases first with
    | error kind => exact h
    | ok v =>
      obtain ⟨b, hab, hb, hmethod, hstack⟩ := h
      exact .after hab hmethod (hnext v b rfl hb hmethod hstack)

/-! ## Stores -/

/-- What is left when a value is stored in a variable. -/
def assigned (E : Setting) (x : Variable) (stored : TargetType) (v : Value) : Effect :=
  ⟨v, fun slot => if slot = x.slot then some (v.narrow stored) else E.kept? slot, E.store⟩

/-- What is left when a value is stored through an address. -/
def storing (E : Setting) (stored : TargetType) (p v : Value) : Except Fault.Kind Effect := do
  let heap ← (p.asPointer >>= fun q => E.store.heap.store q stored v).mapError Fault.kind
  .ok ⟨v.narrow stored, E.kept?, { E.store with heap := heap }⟩

namespace Has

/-- A value is copied, and the copy is stored in a variable. -/
theorem ends_assign {x : Variable} (ha : E.Has u a) (hx : a.method.Declares x.slot stored)
    (hM : (u.append [] [.dup, x.store]).assembler.method.Extends a.method) (hstack : a.stack = v :: rest) :
    E.Ends S a (u.append [] [.dup, x.store]) rest (.ok (E.assigned x stored v)) := by
  let copied : Activation := { a with stack := v :: v :: rest }.advance
  let b : Activation := { copied with stack := v :: rest, pc := copied.pc + 1 }
  have hdup : a.Follows E.store [.dup] copied := .cons rfl (.dup hstack) rfl .nil
  have hdeclared : copied.method.Declares x.slot stored := hx
  have hfollows : a.Follows E.store [.dup, x.store] (b.keep (v.narrow stored) x.slot) :=
    hdup.append (Activation.follows_store rfl hdeclared E.store)
  have hcode := Scope.hasCode_append hM
  rw [← ha.pc] at hcode
  refine ⟨_, Stage.leads_of_runsTo (hfollows.runsTo hcode), ?_, hfollows.same.method, Activation.stack_keep ..⟩
  refine ha.append hfollows.same hfollows.pc (fun p hp => ?_) E.store
  show _ = if p.2.slot = x.slot then some (v.narrow stored) else E.kept? p.2.slot
  split
  · rename_i heq
    rw [heq]
    exact Activation.kept?_keep_self (ha.sized.isSome_kept? hx)
  · rename_i hne
    rw [Activation.kept?_keep_of_ne (Ne.symm hne)]
    exact ha.kept p hp

/-- A value is kept in a temporary, a copy is stored through an address, and the temporary is left. -/
theorem ends_storing (ha : E.Has u a)
    (hM : (u.append [stored] [.dup, .storeLocal u.nextSlot, .store stored,
      .loadLocal u.nextSlot]).assembler.method.Extends a.method) (hstack : a.stack = v :: p :: rest) :
    E.Ends S a (u.append [stored] [.dup, .storeLocal u.nextSlot, .store stored, .loadLocal u.nextSlot]) rest
      (E.storing stored p v) := by
  have hslot : a.method.Declares (.local u.nextSlot) stored := Scope.declares_temporary hM ha.addressable
  let x : Variable := ⟨.local u.nextSlot, .int⟩
  let copied : Activation := { a with stack := v :: v :: p :: rest }.advance
  let b : Activation := { copied with stack := v :: p :: rest, pc := copied.pc + 1 }.keep (v.narrow stored) x.slot
  have hdup : a.Follows E.store [.dup] copied := .cons rfl (.dup hstack) rfl .nil
  have hdeclared : copied.method.Declares x.slot stored := hslot
  have hab : a.Follows E.store [.dup, x.store] b :=
    hdup.append (Activation.follows_store rfl hdeclared E.store)
  have hcode : a.method.HasCode a.pc ([.dup, x.store] ++ [.store stored, x.load]) := by
    rw [ha.pc]
    exact Scope.hasCode_append hM
  have hruns : S.Leads E.program E.store a E.store b := Stage.leads_of_runsTo (hab.runsTo hcode.left)
  have hi : b.instruction? = some (.store stored) := hcode.right.head
  unfold storing
  cases hresult : p.asPointer >>= fun q => E.store.heap.store q stored v with
  | error f => exact hruns.faults (Stage.faults_of_faultsNext (Activation.faultsNext_store rfl hresult hi))
  | ok heap =>
    obtain ⟨q, hq, hheap⟩ := Except.bind_eq_ok.1 hresult
    let c : Activation := { b with stack := rest }.advance
    have hstore : b.Executes E.store (.store stored) c { E.store with heap := heap } := .store rfl hq hheap
    have hwaits : c.kept? x.slot = some (v.narrow stored) :=
      Activation.kept?_keep_self (ha.sized.isSome_kept? hslot)
    have hload := Activation.follows_load hwaits { E.store with heap := heap }
    have hlast : c.method.HasCode c.pc [x.load] := hcode.right.tail
    have hsame := (hab.same.trans hstore.same).trans hload.same
    refine ⟨_, (hruns.trans (Stage.leads_of_executes hi rfl hstore)).trans
      (Stage.leads_of_runsTo (hload.runsTo hlast)), ?_, hsame.method, rfl⟩
    refine ha.append hsame rfl (fun q hq => ?_) _
    exact (ha.kept?_temporary hM (List.cons_ne_nil _ _) hq).trans (ha.kept q hq)

end Has

end Setting

end ManagedC
