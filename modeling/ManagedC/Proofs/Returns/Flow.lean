import Mathlib.Logic.Relation
import ManagedC.Proofs.Run.Leads
import ManagedC.Proofs.Run.Operands

/-!
# Where control goes inside a method

`Method.Flows` says from which instruction control can go to which place of the same method, whatever
the values are, and `Method.Stays` that it can never come to the end of the instructions in this way.
In a method without protected regions that is where runs go: every call of it, in whatever program it
is called, is at a place that control can flow to from the first instruction. Main statements: a step
keeps this (`Run.OnCourse.step`), and a method whose first instruction stays is never run into its end
(`Method.Stays.neverEnds`).
-/

namespace ManagedC

open Relation (ReflTransGen)

/-- Inside a call only a jump that is always made keeps control from the next instruction. -/
theorem Instruction.isTerminator_of_ne {i : Instruction} (hcontrol : i.isControl = false)
    (h : ∀ target, i ≠ .branch target) : i.isTerminator = false := by
  cases i with
  | branch target => exact absurd rfl (h target)
  | ret | leave | endFinally => cases hcontrol
  | _ => rfl

namespace Method

/-- Control can go from an instruction to a place of the same method. -/
inductive Flows (m : Method) (pc : Nat) : Nat → Prop where
  | next {i : Instruction} : m.body.instructions[pc]? = some i → i.isTerminator = false →
    Flows m pc (pc + 1)
  /-- To the target of a jump. -/
  | jump {i : Instruction} {label : Label} {offset : Nat} :
    m.body.instructions[pc]? = some i → i.target? = some label →
    m.body.labels.offset? label = some offset → Flows m pc offset

/-- From a place control never comes to the end of the instructions. -/
def Stays (m : Method) (pc : Nat) : Prop :=
  ∀ pc', ReflTransGen m.Flows pc pc' → pc' < m.body.instructions.size

/-- No call of the method is ever at the end of the instructions, whatever the outermost call and its
arguments are, and whatever the store is that the run begins with. -/
def NeverEnds (m : Method) : Prop :=
  ∀ (program : Module) (limits : Limits) (host : Method) (arguments : List Value) (depth : Nat)
    (a : Activation) (store : Store) (steps : Nat) (r : Run),
    Activation.enter host arguments depth limits.depth = .ok a →
    Run.Leads program limits ⟨store, steps, a, []⟩ r →
    ∀ b ∈ r.current :: r.callers, b.method = m → b.pc < m.body.instructions.size

end Method

/-- A call outside of all protected regions is where control can flow to from the first
instruction. -/
structure Activation.OnCourse (a : Activation) : Prop where
  regions : a.regions = []
  pending : a.pending = []
  /-- Control can have come there. -/
  reached : ReflTransGen a.method.Flows 0 a.pc

/-- A call that waits at its call instruction is where control can flow to. -/
structure Activation.WaitsOnCourse (a : Activation) : Prop extends a.OnCourse where
  waits : ∃ ref, a.instruction? = some (.call ref)

/-- All calls of a method are where control can flow to. -/
structure Run.OnCourse (m : Method) (r : Run) : Prop where
  current : r.current.method = m → r.current.OnCourse
  callers : ∀ a ∈ r.callers, a.method = m → a.WaitsOnCourse

variable {program : Module} {limits : Limits} {m : Method} {a b : Activation}

namespace Activation

theorem OnCourse.covering (h : a.OnCourse) : a.covering = [] := by
  unfold Activation.covering
  rw [h.regions]
  rfl

/-- A call goes on after the call instruction with which it waited. -/
theorem WaitsOnCourse.resumes (h : a.WaitsOnCourse) (value : Option Value) :
    ({ a with stack := value.toList ++ a.stack }.advance).OnCourse := by
  obtain ⟨ref, hcall⟩ := h.waits
  exact ⟨h.regions, h.pending, h.reached.tail (.next hcall rfl)⟩

/-- A call begins at the first instruction. -/
theorem onCourse_of_enter {arguments : List Value} {depth maxDepth : Nat}
    (hhandlers : m.body.handlers = []) (h : Activation.enter m arguments depth maxDepth = .ok a) :
    a.OnCourse := by
  obtain ⟨-, -, regions, hregions, rfl⟩ := Activation.enter_eq_ok.1 h
  rw [hhandlers] at hregions
  cases hregions
  exact ⟨rfl, rfl, .refl⟩

end Activation

namespace Run

variable {r r' : Run}

/-- A crash ends the calls of the method that it comes to: there are no handlers in them. -/
theorem onCourse_raise {c : Crash} {steps : Nat} {callers : List Activation} {s : Store}
    (hcurrent : a.method = m → a.OnCourse)
    (hcallers : ∀ b ∈ callers, b.method = m → b.WaitsOnCourse)
    (h : raise s steps c a callers = .more r) : r.OnCourse m := by
  induction callers generalizing a s with
  | nil =>
    cases hcovering : a.covering with
    | nil =>
      rw [raise_of_covering_nil hcovering] at h
      cases h
    | cons region rest =>
      rw [raise_of_covering_cons hcovering] at h
      cases h
      refine ⟨fun hm => ?_, hcallers⟩
      rw [(hcurrent hm).covering] at hcovering
      cases hcovering
  | cons caller callers ih =>
    obtain ⟨hcaller, hrest⟩ := List.forall_mem_cons.1 hcallers
    cases hcovering : a.covering with
    | nil =>
      rw [raise_of_covering_nil hcovering] at h
      exact ih (fun hm => (hcaller hm).toOnCourse) hrest h
    | cons region rest =>
      rw [raise_of_covering_cons hcovering] at h
      cases h
      refine ⟨fun hm => ?_, hcallers⟩
      rw [(hcurrent hm).covering] at hcovering
      cases hcovering

/-- When a call ends, the one that waits for it goes on or crashes. -/
theorem onCourse_resume {result : CallResult} {steps : Nat} {callers : List Activation} {s : Store}
    (hcallers : ∀ b ∈ callers, b.method = m → b.WaitsOnCourse)
    (h : resume callers result s steps = .more r) : r.OnCourse m := by
  cases callers with
  | nil => cases h
  | cons caller callers =>
    obtain ⟨hcaller, hrest⟩ := List.forall_mem_cons.1 hcallers
    match result with
    | .error c => exact onCourse_raise (fun hm => (hcaller hm).toOnCourse) hrest h
    | .ok none =>
      cases h
      exact ⟨fun hm => (hcaller hm).resumes none, hrest⟩
    | .ok (some v) =>
      cases h
      exact ⟨fun hm => (hcaller hm).resumes (some v), hrest⟩

/-- A step leads the calls of a method only where control can flow to. -/
theorem OnCourse.step (hhandlers : m.body.handlers = []) (h : r.OnCourse m)
    (hstep : r.StepsTo program limits (.more r')) : r'.OnCourse m := by
  obtain ⟨store, steps, a, callers⟩ := r
  obtain ⟨hcurrent, hcallers⟩ := h
  dsimp only at hcurrent hcallers
  generalize hp : Progress.more r' = p at hstep
  cases hstep with
  | limit | fellOff | faulted | callMissing | callShort | callRefused | retEmpty | leaveUnbound =>
    exact onCourse_raise hcurrent hcallers hp.symm
  | returned | handlerReturned | stray | crashDone => exact onCourse_resume hcallers hp.symm
  | executed _ hi hcontrol hexec =>
    cases hp
    refine ⟨fun hm => ?_, hcallers⟩
    dsimp only at hm ⊢
    have hsame := hexec.same
    rw [hsame.method] at hm
    have ha := hcurrent hm
    refine ⟨hsame.regions.trans ha.regions, hsame.pending.trans ha.pending, ?_⟩
    rw [hsame.method]
    refine ha.reached.tail ?_
    rcases hexec.pc with ⟨hpc, hbranch⟩ | ⟨target, htarget, hoffset⟩
    · rw [hpc]
      exact .next hi (Instruction.isTerminator_of_ne hcontrol hbranch)
    · exact .jump hi htarget hoffset
  | callEntered _ hi hm _ henter =>
    cases hp
    refine ⟨fun hcallee => ?_, List.forall_mem_cons.2 ⟨fun hm => ?_, hcallers⟩⟩
    · obtain ⟨-, -, regions, -, rfl⟩ := Activation.enter_eq_ok.1 henter
      obtain rfl : _ = m := hcallee
      exact Activation.onCourse_of_enter hhandlers henter
    · exact ⟨⟨(hcurrent hm).regions, (hcurrent hm).pending, (hcurrent hm).reached⟩, _, hi⟩
  | jumped _ hi hl _ =>
    cases hp
    refine ⟨fun hm => ?_, hcallers⟩
    have ha := hcurrent hm
    exact ⟨ha.regions, ha.pending, ha.reached.tail (.jump hi rfl hl)⟩
  | left _ _ _ hleaving =>
    -- a jump leaves no regions where there are none
    cases hp
    refine ⟨fun hm => ?_, hcallers⟩
    dsimp only at hleaving
    rw [Activation.leaving, (hcurrent hm).regions] at hleaving
    cases hleaving
  | nextHandler _ _ hpending | jumpDone _ _ hpending =>
    cases hp
    refine ⟨fun hm => ?_, hcallers⟩
    dsimp only at hpending
    rw [(hcurrent hm).pending] at hpending
    cases hpending

/-- In every run the calls of a method are where control can flow to. -/
theorem onCourse_of_leads {host : Method} {arguments : List Value} {depth maxDepth : Nat}
    {store : Store} {steps : Nat} (hhandlers : m.body.handlers = [])
    (henter : Activation.enter host arguments depth maxDepth = .ok a)
    (h : Leads program limits ⟨store, steps, a, []⟩ r) : r.OnCourse m := by
  refine h.keeps (fun r r' _ hr hstep => hr.step hhandlers hstep) ⟨fun hm => ?_, by simp⟩
  have hmethod : a.method = host := by
    obtain ⟨-, -, regions, -, rfl⟩ := Activation.enter_eq_ok.1 henter
    rfl
  obtain rfl : host = m := hmethod.symm.trans hm
  exact Activation.onCourse_of_enter hhandlers henter

end Run

/-- If control stays in a method without regions, no run comes to its end. -/
theorem Method.Stays.neverEnds (hhandlers : m.body.handlers = []) (h : m.Stays 0) :
    m.NeverEnds := by
  intro program limits host arguments depth a store steps r henter hleads b hb hm
  have honCourse := Run.onCourse_of_leads (m := m) hhandlers henter hleads
  subst hm
  rcases List.mem_cons.1 hb with rfl | hb
  · exact h _ (honCourse.current rfl).reached
  · exact h _ (honCourse.callers b hb rfl).reached

end ManagedC
