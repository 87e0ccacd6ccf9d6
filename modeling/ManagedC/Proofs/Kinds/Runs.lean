import ManagedC.Proofs.Cleanup.Guests
import ManagedC.Proofs.Kinds.Methods
import ManagedC.Proofs.Run.InnerFaults
import ManagedC.Proofs.Run.Leads
import ManagedC.Proofs.Run.Step

/-!
# Runs keep the kinds of values

In a program whose methods are typed, a run that never mixes kinds keeps them: what is in the slots and
on the stacks of the calls is of the kinds that the code expects. How much of the code of a call is
looked at is up to a `View`, one for each call: all of it, or only what comes before some instruction, of
which more is known then. If a function has the name of the starter, a call of it begins a call of the
starter, of which nothing is expected: no managed object gets into the functions, and without one it
faults at once. Main statement: a step keeps the kinds (`Run.Conforms.step`).
-/

namespace ManagedC

open EntryPoint (bridge)
open Method (Typed)

/-! ## Kinds of several values -/

namespace Kind

variable {first : Nat} {ks ls : List Kind} {vs : List Value}

/-- Values of the kinds of one list are of those of another of which less is known. -/
theorem allows_of_within (h : List.Forall₂ Within ks ls) (hvs : List.Forall₂ (Allows first) ks vs) :
    List.Forall₂ (Allows first) ls vs := by
  induction h generalizing vs with
  | nil => exact hvs
  | cons hk _ ih =>
    obtain ⟨v, rest, hv, hrest, rfl⟩ := List.forall₂_cons_left_iff.1 hvs
    exact .cons (hk.allows hv) (ih hrest)

/-- Values of kinds that are lent are within reach. -/
theorem within_of_lent (h : ∀ k ∈ ks, k.Within .lent) (hvs : List.Forall₂ (Allows first) ks vs) :
    ∀ v ∈ vs, v.Within (.lent first) := by
  induction hvs with
  | nil => simp
  | cons hv _ ih =>
    obtain ⟨hk, hks⟩ := List.forall_mem_cons.1 h
    exact List.forall_mem_cons.2 ⟨hk.allows hv, ih hks⟩

end Kind

/-! ## Calls -/

/-- A part of the code of a method, and what is known of the stack behind it. -/
structure View where
  /-- The method without the instructions behind the part. -/
  code : Method
  /-- What the kinds on the stack are behind it. -/
  last : List Kind → Prop

/-- The whole code of a method, with nothing behind it. -/
abbrev View.whole (m : Method) : View := ⟨m, fun _ => True⟩

variable {first : Nat} {program : Module} {limits : Limits} {s t : Store} {a b : Activation}
  {views : Nat → Method → View} {view : View} {given outer : List Kind} {callers : List Activation}
  {steps : Nat}

namespace Activation

/-- Control may be at an instruction, once values of the given kinds are pushed. -/
def FitsAt (program : Module) (first : Nat) (view : View) (pc : Nat) (given : List Kind)
    (a : Activation) : Prop :=
  ∀ n, ∃ d, List.Forall₂ (Kind.Allows first) d a.stack ∧
    Typed program view.code view.last n pc (given ++ d)

/-- Apart from those of the starter, calls work with what is lent to them. -/
def Tame (first : Nat) (a : Activation) : Prop :=
  (a.method.Harmless ∧ a.Within (.lent first)) ∨ ∃ entry, a.method = bridge entry

/-- A call has values of the right kinds in its slots, and its handlers may begin. -/
structure Conforms (program : Module) (first : Nat) (view : View) (a : Activation) : Prop where
  /-- What is looked at is the method that runs. -/
  code : view.code.Extends a.method
  kinds : a.KeepsKinds first
  tame : a.Tame first
  regions : ∀ region ∈ a.regions, ∀ n, Typed program view.code view.last n region.handlerStart []
  /-- The handlers that are still to run. -/
  rest : ∀ p ∈ a.pending, ∀ region ∈ p.rest, ∀ n,
    Typed program view.code view.last n region.handlerStart []
  /-- Where control goes after them. -/
  jump : ∀ p ∈ a.pending, ∀ target, p.completion = .jump target → ∀ n,
    Typed program view.code view.last n target []
  /-- What it goes on to crash with. -/
  fail : ∀ p ∈ a.pending, ∀ c, p.completion = .fail c → c.fault.isExitCode = false
  /-- A method without handlers runs none. -/
  quiet : a.method.body.handlers = [] → a.regions = [] ∧ a.pending = []

namespace Conforms

/-- Control moves and values come and go. -/
theorem same (h : a.Conforms program first view) (hab : a.Same b) (hb : b.KeepsKinds first)
    (htame : b.Tame first) : b.Conforms program first view where
  code := hab.method ▸ h.code
  kinds := hb
  tame := htame
  regions := hab.regions ▸ h.regions
  rest := hab.pending ▸ h.rest
  jump := hab.pending ▸ h.jump
  fail := hab.pending ▸ h.fail
  quiet := by
    rw [hab.method, hab.regions, hab.pending]
    exact h.quiet

/-- The stack is replaced by values that are lent, and control moves. -/
theorem restack (h : a.Conforms program first view) {stack : List Value} (pc : Nat)
    (hstack : a.method.Harmless → a.Within (.lent first) → ∀ v ∈ stack, v.Within (.lent first)) :
    Conforms program first view { a with stack := stack, pc := pc } := by
  refine h.same ⟨rfl, rfl, rfl, rfl, rfl⟩ h.kinds ?_
  rcases h.tame with ⟨hharmless, hwithin⟩ | hstarter
  · exact .inl ⟨hharmless, hwithin.arguments, hwithin.locals, hstack hharmless hwithin⟩
  · exact .inr hstarter

/-- A handler can only begin in a method that has one. -/
theorem handlers_ne_nil (h : a.Conforms program first view) {region : Region} (hr : region ∈ a.regions) :
    a.method.body.handlers ≠ [] := by
  intro hnone
  rw [(h.quiet hnone).1] at hr
  cases hr

theorem handlers_ne_nil_of_pending (h : a.Conforms program first view) {p : Pending}
    (hp : p ∈ a.pending) : a.method.body.handlers ≠ [] := by
  intro hnone
  rw [(h.quiet hnone).2] at hp
  cases hp

/-- A method with handlers is one of the starter. -/
theorem starter (h : a.Conforms program first view) (hhandlers : a.method.body.handlers ≠ []) :
    ∃ entry, a.method = bridge entry := by
  rcases h.tame with ⟨hharmless, -⟩ | hstarter
  · exact absurd hharmless.handlers hhandlers
  · exact hstarter

/-- A method without handlers is not, and works with what is lent. -/
theorem lent (h : a.Conforms program first view) (hhandlers : a.method.body.handlers = []) :
    a.method.Harmless ∧ a.Within (.lent first) := by
  rcases h.tame with hlent | ⟨entry, hm⟩
  · exact hlent
  · rw [hm] at hhandlers
    cases hhandlers

/-- A handler begins. -/
theorem enterHandler (h : a.Conforms program first view) {pending : List Pending} {region : Region}
    {rest : List Region} {c : Completion} (hpending : ∀ p ∈ pending, p ∈ a.pending)
    (hrest : ∀ r ∈ rest, ∀ n, Typed program view.code view.last n r.handlerStart [])
    (hjump : ∀ target, c = .jump target → ∀ n, Typed program view.code view.last n target [])
    (hfail : ∀ crash, c = .fail crash → crash.fault.isExitCode = false)
    (hregions : a.method.body.handlers ≠ []) :
    ({ a with pending := pending }.enterHandler region rest c).Conforms program first view where
  code := h.code
  kinds := h.kinds
  tame := .inr (h.starter hregions)
  regions := h.regions
  rest := List.forall_mem_cons.2 ⟨hrest, fun p hp => h.rest p (hpending p hp)⟩
  jump := List.forall_mem_cons.2 ⟨hjump, fun p hp => h.jump p (hpending p hp)⟩
  fail := List.forall_mem_cons.2 ⟨hfail, fun p hp => h.fail p (hpending p hp)⟩
  quiet := fun hnone => absurd hnone hregions

end Conforms

/-- A handler begins with an empty stack. -/
theorem fitsAt_empty {pc : Nat} (hstack : a.stack = [])
    (h : ∀ n, Typed program view.code view.last n pc []) : a.FitsAt program first view pc [] := by
  intro n
  rw [hstack]
  exact ⟨[], .nil, h n⟩

/-- A call begins with arguments of the kinds of its parameters. -/
theorem conforms_enter {m : Method} {arguments : List Value} {depth maxDepth : Nat}
    (hkinded : m.Kinded program) (hm : m.Harmless ∨ ∃ entry, m = bridge entry)
    (harguments : List.Forall₂ (Kind.Allows first) (m.parameters.map (·.type.kind)) arguments)
    (hwithin : m.Harmless → ∀ v ∈ arguments, v.Within (.lent first))
    (h : Activation.enter m arguments depth maxDepth = .ok a) :
    a.method = m ∧ a.Conforms program first (.whole m) ∧ a.FitsAt program first (.whole m) a.pc [] := by
  have htame : a.Tame first := by
    obtain ⟨-, -, regions, -, rfl⟩ := Activation.enter_eq_ok.1 h
    refine hm.imp_left fun hharmless => ⟨hharmless, ?_, ?_, by simp⟩
    · exact fun v hv => hwithin hharmless v (List.mem_toArray.1 hv)
    · intro v hv
      obtain ⟨declared, -, rfl⟩ := Array.mem_map.1 hv
      exact Value.within_zeroOf _
  obtain ⟨-, -, regions', hregions', rfl⟩ := Activation.enter_eq_ok.1 h
  obtain ⟨regions, hregions, htyped⟩ := hkinded.regions
  obtain rfl : regions' = regions := Option.some.inj (hregions'.symm.trans hregions)
  refine ⟨rfl, ⟨.refl m, ?_, htame, htyped, by simp, by simp, by simp, fun hnone => ⟨?_, rfl⟩⟩,
    fitsAt_empty rfl hkinded.start⟩
  · intro slot k v hk hv
    cases slot with
    | parameter index =>
      rw [List.forall₂_iff_get] at harguments
      obtain ⟨hlength, hget⟩ := harguments
      obtain ⟨p, hp, rfl⟩ := Option.map_eq_some_iff.1 hk
      obtain ⟨hlt, rfl⟩ := List.getElem?_eq_some_iff.1 hp
      have hv : arguments[index.toNat]? = some v := by simpa [valueAt?] using hv
      obtain ⟨hlt', rfl⟩ := List.getElem?_eq_some_iff.1 hv
      have := hget index.toNat (by simpa using hlt) hlt'
      simpa using this
    | «local» index =>
      obtain ⟨declared, hdeclared, rfl⟩ := Option.map_eq_some_iff.1 hk
      have hv : m.locals[index.toNat]?.map (fun v => Value.zeroOf v.type) = some v := by
        simpa [valueAt?] using hv
      rw [hdeclared] at hv
      cases hv
      exact TargetType.allows_zeroOf _
  · dsimp only at hnone ⊢
    rw [hnone] at hregions
    cases hregions
    rfl

end Activation

/-- The calls that wait conform, and each can go on with values of the kinds that the call above it
gives. So does what started the outermost one. -/
def CallersConform (program : Module) (first : Nat) (views : Nat → Method → View) (outer : List Kind) :
    List Kind → List Activation → Prop
  | given, [] => given = outer
  | given, a :: callers => a.Conforms program first (views callers.length a.method) ∧
    a.FitsAt program first (views callers.length a.method) (a.pc + 1) given ∧
    CallersConform program first views outer a.method.givenKinds callers

namespace Run

/-- The calls conform, and control is at a typed place. -/
structure Proceeds (program : Module) (first : Nat) (views : Nat → Method → View) (outer : List Kind)
    (r : Run) : Prop where
  current : r.current.Conforms program first (views r.callers.length r.current.method)
  fits : r.current.FitsAt program first (views r.callers.length r.current.method) r.current.pc []
  callers : CallersConform program first views outer r.current.method.givenKinds r.callers

/-- The starter was called by a function and is about to fault. The calls that wait conform, but the
function cannot go on. -/
structure Restarts (program : Module) (first : Nat) (views : Nat → Method → View) (outer : List Kind)
    (r : Run) : Prop where
  current : r.current.Restarted (.lent first)
  callers : ∃ caller callers, r.callers = caller :: callers ∧
    caller.Conforms program first (views callers.length caller.method) ∧
    CallersConform program first views outer caller.method.givenKinds callers

/-- The values in the store and in the calls are of the kinds that they should be of. -/
structure Conforms (program : Module) (first : Nat) (views : Nat → Method → View) (outer : List Kind)
    (r : Run) : Prop where
  lends : r.store.Lends first
  calls : r.Proceeds program first views outer ∨ r.Restarts program first views outer

end Run

/-- The calls conform, or the outermost one has given values of the right kinds, or crashed. -/
def Progress.Conforms (program : Module) (first : Nat) (views : Nat → Method → View)
    (outer : List Kind) : Progress → Prop
  | .more r => r.Conforms program first views outer
  | .done result _ _ =>
    (∀ value, result = .ok value → List.Forall₂ (Kind.Allows first) outer value.toList) ∧
      ∀ c, result = .error c → c.fault.isExitCode = false

namespace Run

/-- The calls conform when one crashes. -/
theorem conforms_raise {c : Crash} (hc : c.fault.isExitCode = false) {callers : List Activation}
    {s : Store} {a : Activation} (hs : s.Lends first)
    (ha : a.Conforms program first (views callers.length a.method))
    (hw : CallersConform program first views outer a.method.givenKinds callers) :
    (raise s steps c a callers).Conforms program first views outer := by
  cases hcover : a.covering with
  | cons region rest =>
    rw [raise_of_covering_cons hcover]
    have hmem : ∀ r ∈ region :: rest, r ∈ a.regions := fun r hr =>
      List.mem_of_mem_filter (by rwa [← Activation.covering, hcover])
    obtain ⟨hregion, hrest⟩ := List.forall_mem_cons.1 fun r hr => ha.regions r (hmem r hr)
    refine ⟨hs, .inl ⟨ha.enterHandler (fun _ hp => hp) hrest nofun ?_
      (ha.handlers_ne_nil (hmem region List.mem_cons_self)),
      Activation.fitsAt_empty rfl hregion, hw⟩⟩
    rintro _ ⟨⟩
    exact hc
  | nil =>
    rw [raise_of_covering_nil hcover]
    cases callers with
    | nil =>
      refine ⟨nofun, ?_⟩
      rintro _ ⟨⟩
      exact hc
    | cons caller callers => exact conforms_raise hc (a.lends_close hs) hw.1 hw.2.2
termination_by callers.length

/-- The calls conform when one ends with values of the kinds that it should give. -/
theorem conforms_resume {callers : List Activation} {result : CallResult} (hs : s.Lends first)
    (hw : CallersConform program first views outer given callers)
    (hvalue : ∀ value, result = .ok value → List.Forall₂ (Kind.Allows first) given value.toList ∧
      ∀ v ∈ value, v.Within (.lent first))
    (hcrash : ∀ c, result = .error c → c.fault.isExitCode = false) :
    (resume callers result s steps).Conforms program first views outer := by
  cases callers with
  | nil =>
    obtain rfl : given = outer := hw
    exact ⟨fun value hok => (hvalue value hok).1, hcrash⟩
  | cons caller callers =>
    obtain ⟨hcaller, hfits, hw⟩ := hw
    cases result with
    | error c => exact conforms_raise (hcrash c rfl) hs hcaller hw
    | ok value =>
      obtain ⟨hvalue, hwithin⟩ := hvalue value rfl
      have hresumed : Conforms program first views outer ⟨s, steps,
          { caller with stack := value.toList ++ caller.stack }.advance, callers⟩ := by
        refine ⟨hs, .inl ⟨hcaller.restack _ fun _ hcaller v hv => ?_, fun n => ?_, hw⟩⟩
        · rcases List.mem_append.1 hv with hv | hv
          · exact hwithin v (Option.mem_toList.1 hv)
          · exact hcaller.stack v hv
        · obtain ⟨d, hstack, htyped⟩ := hfits n
          exact ⟨given ++ d, List.rel_append hvalue hstack, htyped⟩
      cases value with
      | none => exact hresumed
      | some v => exact hresumed

end Run

namespace EntryPoint

/-- The starter does not store through pointers. -/
theorem ne_store_of_bridge {entry : MethodRef} {pc : Nat} {i : Instruction}
    (hi : (bridge entry).body.instructions[pc]? = some i) (type : TargetType) : i ≠ .store type := by
  rintro rfl
  have hall : ∀ n : Nat, n < 38 → ((bridge entry).body.instructions[n]?.any fun i =>
      match i with
      | .store _ => true
      | _ => false) = false := of_decide_eq_true rfl
  have hnone := hall pc (Array.getElem?_eq_some_iff.1 hi).1
  rw [hi] at hnone
  cases hnone

end EntryPoint

namespace Activation

variable {i : Instruction}

/-- A call of the starter begins with what is lent. -/
theorem restarted_of_enter {entry : MethodRef} {arguments : List Value} {depth maxDepth : Nat}
    (harguments : ∀ v ∈ arguments, v.Within (.lent first))
    (h : enter (bridge entry) arguments depth maxDepth = .ok a) : a.Restarted (.lent first) := by
  rcases modest_or_restarted_of_enter (.inr ⟨entry, rfl⟩) harguments h with hmodest | hrestarted
  · obtain ⟨-, -, regions, -, rfl⟩ := enter_eq_ok.1 h
    cases hmodest.method.handlers
  · exact hrestarted

/-- A call that conforms spares what is lent. -/
theorem Conforms.spares (ha : a.Conforms program first view) (hfits : a.FitsAt program first view a.pc [])
    (hi : a.instruction? = some i) (hsame : view.code.body.instructions[a.pc]? = some i) :
    a.Spares first i := by
  rcases ha.tame with ⟨hharmless, hwithin⟩ | ⟨entry, hm⟩
  · have hplain := hharmless.code a.pc i hi
    refine ⟨?_, ?_⟩
    · rintro _ _ _ _ rfl
      cases hplain
    · intro type v u rest _ hstack
      exact hwithin.stack v (hstack ▸ List.mem_cons_self)
  · have hinstruction : (bridge entry).body.instructions[a.pc]? = some i := by
      rw [← hm]
      exact hi
    have hstore := EntryPoint.ne_store_of_bridge hinstruction
    cases hstraight : i.isStraight with
    | true =>
      obtain ⟨d, hstack, htyped⟩ := hfits 1
      obtain ⟨e, hturns, -⟩ := (Method.typed_straight hsame hstraight).1 htyped
      exact spares_of_turns hturns hstack hstore
    | false =>
      refine ⟨?_, fun type _ _ _ heq => absurd heq (hstore type)⟩
      rintro _ _ _ _ rfl
      cases hstraight

/-- Calls go on to work with what is lent to them. -/
theorem Executes.tame (hexec : a.Executes s i b t) (ha : a.Conforms program first view)
    (hi : a.instruction? = some i) (hs : s.Lends first) : b.Tame first := by
  unfold Tame
  rw [hexec.same.method]
  refine ha.tame.imp_left fun ⟨hharmless, hwithin⟩ => ⟨hharmless, ?_⟩
  exact (hexec.within (Instruction.allocates_of_isPlain (hharmless.code _ _ hi)) hwithin hs.within).1

/-- An instruction inside the call that does not mix kinds leads to a typed place. -/
theorem FitsAt.executes (h : a.FitsAt program first view a.pc []) (hexec : a.Executes s i b t)
    (hcode : view.code.Extends a.method) (hi : a.instruction? = some i)
    (hsame : view.code.body.instructions[a.pc]? = some i) (hmixes : ¬ a.Mixes s)
    (hlends : s.Lends first) (hkinds : a.KeepsKinds first) :
    b.KeepsKinds first ∧ b.FitsAt program first view b.pc [] := by
  have hnext : ∀ j, view.code.body.instructions[a.pc + 1]? = some j →
      a.method.body.instructions[a.pc + 1]? = some j := fun j hj => hcode.instruction hj
  cases hstraight : i.isStraight with
  | true =>
    have hpc : b.pc = a.pc + 1 := by
      rcases hexec.pc with ⟨hpc, -⟩ | ⟨target, htarget, -⟩
      · exact hpc
      · cases i <;> cases htarget <;> cases hstraight
    refine ⟨?_, fun n => ?_⟩
    · obtain ⟨d, hstack, htyped⟩ := h 1
      obtain ⟨e, hturns, -⟩ := (Method.typed_straight hsame hstraight).1 htyped
      exact (hexec.turns hturns hcode hi hnext hmixes hlends hkinds hstack).2
    · obtain ⟨d, hstack, htyped⟩ := h (n + 1)
      obtain ⟨e, hturns, hafter⟩ := (Method.typed_straight hsame hstraight).1 htyped
      rw [hpc]
      exact ⟨e, (hexec.turns hturns hcode hi hnext hmixes hlends hkinds hstack).1, hafter⟩
  | false =>
    cases hexec with
    | branch hl =>
      refine ⟨hkinds, fun n => ?_⟩
      obtain ⟨d, hstack, htyped⟩ := h (n + 1)
      obtain ⟨offset, ho, hafter⟩ := (Method.typed_branch hsame).1 htyped
      obtain rfl := Option.some.inj ((hcode.labels _ _ ho).symm.trans hl)
      exact ⟨d, hstack, hafter⟩
    | branchTaken hs _ hl =>
      refine ⟨hkinds, fun n => ?_⟩
      obtain ⟨d, hstack, htyped⟩ := h (n + 1)
      obtain ⟨k, e, offset, rfl, ho, hafter, -⟩ := (Method.typed_branchIf hsame).1 htyped
      obtain rfl := Option.some.inj ((hcode.labels _ _ ho).symm.trans hl)
      rw [hs] at hstack
      exact ⟨e, (List.forall₂_cons.1 hstack).2, hafter⟩
    | branchPassed hs =>
      refine ⟨hkinds, fun n => ?_⟩
      obtain ⟨d, hstack, htyped⟩ := h (n + 1)
      obtain ⟨k, e, offset, rfl, -, -, hafter⟩ := (Method.typed_branchIf hsame).1 htyped
      rw [hs] at hstack
      exact ⟨e, (List.forall₂_cons.1 hstack).2, hafter⟩
    | onTop hf => cases i <;> cases hf <;> cases hstraight
    | onTop2 hf => cases i <;> cases hf <;> cases hstraight
    | _ => cases hstraight

/-- A jump out of regions leads to a typed place. -/
theorem FitsAt.leave {label : Label} {target : Nat} (h : a.FitsAt program first view a.pc [])
    (hcode : view.code.Extends a.method)
    (hsame : view.code.body.instructions[a.pc]? = some (.leave label))
    (hl : a.method.body.labels.offset? label = some target) (n : Nat) :
    Typed program view.code view.last n target [] := by
  obtain ⟨d, -, htyped⟩ := h (n + 1)
  obtain ⟨offset, ho, hafter⟩ := (Method.typed_leave hsame).1 htyped
  obtain rfl := Option.some.inj ((hcode.labels _ _ ho).symm.trans hl)
  exact hafter

/-- What a call returns is of the kind of its result, and it is lent. -/
theorem FitsAt.returns {value : Option Value} (h : a.FitsAt program first view a.pc [])
    (ha : a.Conforms program first view) (hsame : view.code.body.instructions[a.pc]? = some .ret)
    (hvalue : a.Returns value) : List.Forall₂ (Kind.Allows first) a.method.givenKinds value.toList ∧
      ∀ v ∈ value, v.Within (.lent first) := by
  have hgiven : view.code.givenKinds = a.method.givenKinds := by
    rw [Method.givenKinds, Method.givenKinds, ha.code.returnType]
  obtain ⟨d, hstack, htyped⟩ := h 1
  obtain ⟨e, hd⟩ := (Method.typed_ret hsame).1 htyped
  obtain rfl : d = a.method.givenKinds ++ e := by rw [← hgiven, ← hd, List.nil_append]
  rcases hvalue with ⟨hvoid, rfl⟩ | ⟨hvoid, v, rest, hv, rfl⟩
  · rw [Method.givenKinds, if_pos hvoid]
    exact ⟨.nil, by rintro _ ⟨⟩⟩
  · rw [Method.givenKinds, if_neg hvoid] at hstack ⊢
    rw [hv] at hstack
    have hkind := (List.forall₂_cons.1 hstack).1
    refine ⟨.cons hkind .nil, ?_⟩
    rintro _ ⟨⟩
    rcases ha.tame with ⟨-, hwithin⟩ | ⟨entry, hstarter⟩
    · exact hwithin.stack v (hv ▸ List.mem_cons_self)
    · -- What a starter returns is a number.
      rw [hstarter] at hkind
      obtain ⟨n, rfl⟩ := hkind
      trivial

end Activation

namespace Run

variable {r : Run}

/-- A step of a starter that was called by a function. -/
theorem Restarts.step (hs : r.store.Lends first) (h : r.Restarts program first views outer) :
    (r.step program limits).Conforms program first views outer := by
  obtain ⟨s, steps, a, callers⟩ := r
  obtain ⟨ha, caller, callers, rfl, hcaller, hw⟩ := h
  dsimp only at ha hs
  have hraise : ∀ {t : Store} {steps : Nat} {c : Crash}, t.Lends first → c.fault.isExitCode = false →
      (raise t steps c a (caller :: callers)).Conforms program first views outer := by
    intro t steps c ht hc
    rw [raise_of_covering_nil ha.covering]
    exact conforms_raise hc (a.lends_close ht) hcaller hw
  have hspares : ∀ {i : Instruction}, a.instruction? = some i → a.Spares first i := by
    intro i hi
    rcases Restarted.instruction ha hi with ⟨-, rfl⟩ | ⟨-, rfl⟩
    · exact ⟨nofun, nofun⟩
    · exact ⟨nofun, nofun⟩
  have hcontrol : ∀ {i : Instruction}, a.instruction? = some i → i.isControl = false := by
    intro i hi
    rcases Restarted.instruction ha hi with ⟨-, rfl⟩ | ⟨-, rfl⟩
    · rfl
    · rfl
  have hsteps := @stepsTo_step program limits ⟨s, steps, a, caller :: callers⟩
  generalize Run.step program limits ⟨s, steps, a, caller :: callers⟩ = p at hsteps
  cases hsteps with
  | limit | fellOff => exact hraise hs rfl
  | faulted _ hi _ hfails =>
    have hinner := Fault.isExitCode_of_not_isOuter (a.inner_execute _ _ _ _ hfails)
    exact hraise (Activation.lends_of_fails hfails (hspares hi) hs) hinner
  | executed _ hi _ hexec =>
    refine ⟨hexec.lends (hspares hi) hs, .inr ⟨?_, caller, callers, rfl, hcaller, hw⟩⟩
    rcases Restarted.instruction ha hi with ⟨hpc, rfl⟩ | ⟨-, rfl⟩
    · have hwithin := (hexec.within rfl ha.within hs.within).1
      cases hexec with
      | loadArgument =>
        exact ⟨ha.method, ha.regions, ha.pending, Nat.succ_le_succ (Nat.le_of_eq hpc), ha.unpinned,
          hwithin⟩
      | onTop hf => cases hf
      | onTop2 hf => cases hf
    · cases hexec with
      | arrayLength hstack hid =>
        have hv := ha.within.stack
        dsimp only at hstack
        rw [hstack] at hv
        exact ((List.forall_mem_cons.1 hv).1.asObject hid).elim
      | onTop hf => cases hf
      | onTop2 hf => cases hf
  | callMissing _ hi | callShort _ hi | callRefused _ hi | callEntered _ hi | retEmpty _ hi
  | returned _ hi | handlerReturned _ hi | leaveUnbound _ hi | jumped _ hi | left _ hi | stray _ hi
  | nextHandler _ hi | jumpDone _ hi | crashDone _ hi => cases hcontrol hi

/-- A call that begins conforms, and so does the one that waits for it. If a function has the name of the
starter, that is called instead. -/
theorem Proceeds.called {s : Store} {steps depth : Nat} {ref : MethodRef} {m : Method}
    {callee : Activation} (hprogram : ∀ m ∈ program.methods, m.Kinded program)
    (hhospitable : program.Hospitable) (hs : s.Lends first)
    (h : Proceeds program first views outer ⟨s, steps, a, callers⟩)
    (hi : (views callers.length a.method).code.body.instructions[a.pc]? = some (.call ref))
    (hm : program.findMethod? ref.name = some m)
    (henter : Activation.enter m (a.stack.take m.parameters.length).reverse depth limits.depth =
      .ok callee)
    (hwhole : ∀ m, views (callers.length + 1) m = .whole m) :
    Conforms program first views outer ⟨s.opened, steps + 1, callee,
      { a with stack := a.stack.drop m.parameters.length } :: callers⟩ := by
  obtain ⟨ha, hfits, hw⟩ := h
  dsimp only at ha hfits hw
  have hdropped : Activation.Conforms program first (views callers.length a.method)
      { a with stack := a.stack.drop m.parameters.length } :=
    ha.restack a.pc fun _ hwithin v hv => hwithin.stack v (List.mem_of_mem_drop hv)
  have hreach : a.method.body.handlers = [] →
      ∀ v ∈ (a.stack.take m.parameters.length).reverse, v.Within (.lent first) := fun hnone v hv =>
    (ha.lent hnone).2.stack v (List.mem_of_mem_take (List.mem_reverse.1 hv))
  by_cases hrestarts : Method.Restarts program (views callers.length a.method).code ref
  · obtain ⟨hnone, entry, hfind⟩ := hrestarts
    rw [← ha.code.handlers] at hnone
    obtain rfl : bridge entry = m := Option.some.inj (hfind.symm.trans hm)
    exact ⟨hs.opened, .inr ⟨Activation.restarted_of_enter (hreach hnone) henter, _, callers, rfl,
      hdropped, hw⟩⟩
  have hcall : ∀ n, ∃ taken e, List.Forall₂ (Kind.Allows first) (taken ++ e) a.stack ∧
      (views callers.length a.method).code.PassesTo m taken ∧
      Typed program (views callers.length a.method).code (views callers.length a.method).last n
        (a.pc + 1) (m.givenKinds ++ e) := by
    intro n
    obtain ⟨d, hstack, htyped⟩ := hfits (n + 1)
    obtain hc | ⟨callee, taken, e, hfind, hpasses, rfl, hafter⟩ := (Method.typed_call hi).1 htyped
    · exact absurd hc hrestarts
    · obtain rfl : m = callee := Option.some.inj (hm.symm.trans hfind)
      exact ⟨taken, e, hstack, hpasses, hafter⟩
  have hlength : ∀ {taken : List Kind}, List.Forall₂ Kind.Within taken m.takenKinds →
      taken.length = m.parameters.length := by
    intro taken h
    rw [h.length_eq, Method.takenKinds, List.length_reverse, List.length_map]
  obtain ⟨taken, e, hstack, hpasses, -⟩ := hcall 0
  have htaken : List.Forall₂ (Kind.Allows first) taken (a.stack.take m.parameters.length) := by
    have htake := List.forall₂_take m.parameters.length hstack
    rwa [List.take_left' (hlength hpasses.within)] at htake
  have harguments : List.Forall₂ (Kind.Allows first) (m.parameters.map (·.type.kind))
      (a.stack.take m.parameters.length).reverse := by
    rw [← List.forall₂_reverse_iff, List.reverse_reverse]
    exact Kind.allows_of_within hpasses.within htaken
  have hlent : ∀ v ∈ (a.stack.take m.parameters.length).reverse, v.Within (.lent first) := by
    rcases hpasses.lent with hnone | hlent
    · exact hreach (ha.code.handlers.trans hnone)
    · exact fun v hv => Kind.within_of_lent hlent htaken v (List.mem_reverse.1 hv)
  have hmem := Module.mem_of_findMethod? hm
  obtain ⟨hmethod, hcallee, hstart⟩ := Activation.conforms_enter (hprogram m hmem)
    (hhospitable m hmem) harguments (fun _ => hlent) henter
  have hview : views (callers.length + 1) callee.method = .whole m := by
    rw [hwhole, hmethod]
  refine ⟨hs.opened, .inl ⟨?_, ?_, hdropped, fun n => ?_, hw⟩⟩
  · dsimp only [List.length_cons]
    rwa [hview]
  · dsimp only [List.length_cons]
    rwa [hview]
  · obtain ⟨taken, e, hstack, hpasses, hafter⟩ := hcall n
    have hdrop := List.forall₂_drop m.parameters.length hstack
    rw [List.drop_left' (hlength hpasses.within)] at hdrop
    dsimp only
    rw [hmethod]
    exact ⟨e, hdrop, hafter⟩

/-- A step that mixes no kinds keeps them. -/
theorem Proceeds.step (hprogram : ∀ m ∈ program.methods, m.Kinded program)
    (hhospitable : program.Hospitable) (hs : r.store.Lends first)
    (h : r.Proceeds program first views outer) (hmixes : ¬ r.current.Mixes r.store)
    (hsame : (views r.callers.length r.current.method).code.body.instructions[r.current.pc]? =
      r.current.instruction?)
    (hwhole : ∀ m, views (r.callers.length + 1) m = .whole m) :
    (r.step program limits).Conforms program first views outer := by
  obtain ⟨s, steps, a, callers⟩ := r
  obtain ⟨ha, hfits, hw⟩ := h
  dsimp only at ha hfits hw hs hmixes hsame hwhole
  have hraise : ∀ {t : Store} {steps : Nat} {c : Crash}, t.Lends first → c.fault.isExitCode = false →
      (raise t steps c a callers).Conforms program first views outer :=
    fun ht hc => conforms_raise hc ht ha hw
  have hreleased := a.lends_close hs
  have hsteps := @stepsTo_step program limits ⟨s, steps, a, callers⟩
  generalize Run.step program limits ⟨s, steps, a, callers⟩ = p at hsteps
  cases hsteps with
  | limit | fellOff | callMissing | callShort | retEmpty | leaveUnbound => exact hraise hs rfl
  | faulted _ hi _ hfails =>
    have hspares := ha.spares hfits hi (hsame.trans hi)
    have hinner := Fault.isExitCode_of_not_isOuter (a.inner_execute _ _ _ _ hfails)
    exact hraise (Activation.lends_of_fails hfails hspares hs) hinner
  | callRefused _ _ _ _ hrefused =>
    have hinner := Fault.isExitCode_of_not_isOuter (Activation.inner_enter _ _ _ _ _ hrefused)
    exact hraise hs hinner
  | executed _ hi _ hexec =>
    obtain ⟨hkinds, hnext⟩ :=
      hfits.executes hexec ha.code hi (hsame.trans hi) hmixes hs ha.kinds
    have htame := hexec.tame ha hi hs
    have hab := hexec.same
    refine ⟨hexec.lends (ha.spares hfits hi (hsame.trans hi)) hs, .inl ⟨?_, ?_, ?_⟩⟩
    · dsimp only
      rw [hab.method]
      exact ha.same hab hkinds htame
    · dsimp only
      rwa [hab.method]
    · dsimp only
      rwa [hab.method]
  | callEntered _ hi hm _ henter =>
    exact Proceeds.called hprogram hhospitable hs ⟨ha, hfits, hw⟩ (hsame.trans hi) hm henter hwhole
  | returned _ hi hvalue =>
    refine conforms_resume hreleased hw ?_ (by rintro _ ⟨⟩)
    rintro _ ⟨⟩
    exact hfits.returns ha (hsame.trans hi) hvalue
  | handlerReturned | stray =>
    refine conforms_resume hreleased hw (by rintro _ ⟨⟩) ?_
    rintro _ ⟨⟩
    rfl
  | crashDone _ _ hp _ hc =>
    refine conforms_resume hreleased hw (by rintro _ ⟨⟩) ?_
    rintro _ ⟨⟩
    dsimp only at hp
    exact ha.fail _ (hp ▸ List.mem_cons_self) _ hc
  | @jumped label target _ hi hl hleaving =>
    exact ⟨hs, .inl ⟨ha.restack target (by simp),
      Activation.fitsAt_empty rfl (hfits.leave ha.code (hsame.trans hi) hl), hw⟩⟩
  | @left label target region rest _ hi hl hleaving =>
    have hmem : ∀ r ∈ region :: rest, r ∈ a.regions := fun r hr =>
      List.mem_of_mem_filter (hleaving ▸ hr : r ∈ a.leaving target)
    obtain ⟨hregion, hrest⟩ := List.forall_mem_cons.1 fun r hr => ha.regions r (hmem r hr)
    refine ⟨hs, .inl ⟨ha.enterHandler (fun _ hp => hp) hrest ?_ (by rintro _ ⟨⟩)
      (ha.handlers_ne_nil (hmem region List.mem_cons_self)),
      Activation.fitsAt_empty rfl hregion, hw⟩⟩
    rintro _ ⟨⟩
    exact hfits.leave ha.code (hsame.trans hi) hl
  | @nextHandler p pending region rest _ hi hp hrest =>
    dsimp only at hp
    have hmem : p ∈ a.pending := hp ▸ List.mem_cons_self
    obtain ⟨hregion, htyped⟩ := List.forall_mem_cons.1 (hrest ▸ ha.rest p hmem)
    refine ⟨hs, .inl ⟨ha.enterHandler (fun q hq => ?_) htyped (ha.jump p hmem) (ha.fail p hmem)
      (ha.handlers_ne_nil_of_pending hmem), Activation.fitsAt_empty rfl hregion, hw⟩⟩
    exact hp ▸ List.mem_cons_of_mem _ hq
  | @jumpDone p pending target _ hi hp hrest hc =>
    dsimp only at hp
    have hmem : p ∈ a.pending := hp ▸ List.mem_cons_self
    have hpending : ∀ q ∈ pending, q ∈ a.pending := fun q hq => hp ▸ List.mem_cons_of_mem _ hq
    have hhandlers := ha.handlers_ne_nil_of_pending hmem
    refine ⟨hs, .inl ⟨⟨ha.code, ha.kinds, .inr (ha.starter hhandlers), ha.regions,
      fun q hq => ha.rest q (hpending q hq), fun q hq => ha.jump q (hpending q hq),
      fun q hq => ha.fail q (hpending q hq), fun hnone => absurd hnone hhandlers⟩,
      Activation.fitsAt_empty rfl (ha.jump p hmem target hc), hw⟩⟩

/-- A step that mixes no kinds keeps them. The view of the call in progress must have the instruction
that is executed in it, and if a call begins, all of its code must be in view. -/
theorem Conforms.step (hprogram : ∀ m ∈ program.methods, m.Kinded program)
    (hhospitable : program.Hospitable) (h : r.Conforms program first views outer)
    (hmixes : ¬ r.current.Mixes r.store)
    (hsame : (views r.callers.length r.current.method).code.Extends r.current.method →
      (views r.callers.length r.current.method).code.body.instructions[r.current.pc]? =
        r.current.instruction?)
    (hwhole : ∀ m, views (r.callers.length + 1) m = .whole m) :
    (r.step program limits).Conforms program first views outer := by
  rcases h.calls with hproceeds | hrestarts
  · exact hproceeds.step hprogram hhospitable h.lends hmixes (hsame hproceeds.current.code) hwhole
  · exact hrestarts.step h.lends

/-- A call of a method without handlers is not one of the starter. -/
theorem Conforms.proceeds (h : r.Conforms program first views outer)
    (hhandlers : r.current.method.body.handlers = []) : r.Proceeds program first views outer := by
  rcases h.calls with hproceeds | hrestarts
  · exact hproceeds
  · obtain ⟨entry, hm⟩ := hrestarts.current.method
    rw [hm] at hhandlers
    cases hhandlers

end Run

end ManagedC
