import ManagedC.Proofs.Run.Operands
import ManagedC.Proofs.Unwinding.Incidents
import ManagedC.Proofs.Unwinding.Nesting

/-!
# Control in handlers

In a method whose regions are nested and whose handlers are left in no other way than by their end or
an error (`Method.Structured`), control stays where the handlers on their way are (`Handling`): the
running handler has the instruction that comes next, the handlers that are to run after it are those of
the regions around it, and where control goes afterwards is part of the handlers around them. Main
statement: every step keeps this (`Run.Shows.confined`).
-/

namespace ManagedC

/-- The regions of a method are nested, and its handlers are left by their end or an error only. -/
structure Method.Structured (m : Method) (regions : List Region) : Prop where
  nested : Nested regions
  /-- A handler does not return. -/
  ret : ∀ g ∈ regions, ∀ x, g.Handles x → m.body.instructions[x]? ≠ some .ret
  /-- Jumps in a handler stay in it. -/
  jumps : ∀ g ∈ regions, ∀ x i label target, g.Handles x → m.body.instructions[x]? = some i →
    i.target? = some label → m.body.labels.offset? label = some target → g.Handles target
  /-- Control does not run over the end of a handler. -/
  falls : ∀ g ∈ regions, ∀ x i, g.Handles x → m.body.instructions[x]? = some i →
    i.isTerminator = false → g.Handles (x + 1)

/-- A program whose methods are all like that. -/
def Module.Structured (program : Module) : Prop :=
  ∀ m ∈ program.methods, ∀ regions, m.body.handlers.mapM m.body.region? = some regions →
    m.Structured regions

/-- Control is where the handlers on their way are. Below one that runs because of an error nothing
matters, since control never comes back there. -/
inductive Handling (regions : List Region) : Nat → List Pending → Prop where
  | idle {x : Nat} : Handling regions x []
  /-- A handler runs because of an error. -/
  | failing {x : Nat} {p : Pending} {ps : List Pending} {g : Region} {c : Crash} : g ∈ regions →
    g.Handles x → p.completion = .fail c → enclosing regions g = p.rest → Handling regions x (p :: ps)
  /-- A handler runs because of a jump. -/
  | jumping {x : Nat} {p : Pending} {ps : List Pending} {g : Region} {target : Nat}
    {outer : List Region} : g ∈ regions → g.Handles x → p.completion = .jump target →
    enclosing regions g = p.rest ++ outer →
    (∀ h ∈ g :: p.rest, ∀ y, h.Handles y → Handling regions y ps) → Handling regions target ps →
    Handling regions x (p :: ps)

/-- Control is where it may be in a call of a method with nested regions. -/
structure Activation.Confined (a : Activation) : Prop where
  structured : a.method.Structured a.regions
  /-- Control is where the handlers are. -/
  handling : Handling a.regions a.pc a.pending

/-- Control is where it may be in all calls, and the calls that wait do so at call instructions. -/
structure Run.Confined (r : Run) : Prop where
  current : r.current.Confined
  callers : ∀ a ∈ r.callers, a.Confined ∧ ∃ ref, a.instruction? = some (.call ref)

/-- A run that goes on is confined. -/
def Progress.Confined : Progress → Prop
  | .more r => r.Confined
  | .done _ _ _ => True

namespace Handling

variable {regions : List Region} {x y : Nat} {ps : List Pending}

/-- Control may go where it leaves no handler. -/
theorem move (h : Handling regions x ps) (hxy : ∀ g ∈ regions, g.Handles x → g.Handles y) :
    Handling regions y ps := by
  cases h with
  | idle => exact .idle
  | failing hg hx hc hrest => exact .failing hg (hxy _ hg hx) hc hrest
  | jumping hg hx hc hrest hbelow htarget =>
    exact .jumping hg (hxy _ hg hx) hc hrest hbelow htarget

end Handling

namespace Method.Structured

variable {m : Method} {regions : List Region} {x target : Nat} {i : Instruction} {label : Label}
  {ps : List Pending} {h : Region} {rest : List Region} {c : Crash}

theorem handles_start (hm : m.Structured regions) (hh : h ∈ regions) : h.Handles h.handlerStart :=
  ⟨Nat.le_refl _, (hm.nested.shaped h hh).handler⟩

/-- The handlers of a jump begin. -/
theorem jumping (hm : m.Structured regions) (hi : m.body.instructions[x]? = some i)
    (hlabel : i.target? = some label) (htarget : m.body.labels.offset? label = some target)
    (hps : Handling regions x ps)
    (hleaving : regions.filter (fun g => g.protects x && !g.protects target) = h :: rest) :
    Handling regions h.handlerStart (⟨h.handlerStart, rest, .jump target⟩ :: ps) := by
  obtain ⟨outer, hcovering, -⟩ := @Nested.covering_eq_leaving regions x target hm.nested
  rw [hleaving] at hcovering
  have hmem : ∀ g ∈ h :: rest, g ∈ regions ∧ g.protects x = true ∧ ¬ g.protects target = true := by
    intro g hg
    obtain ⟨hg, hleft⟩ := List.mem_filter.1 (hleaving ▸ hg)
    rw [Bool.and_eq_true, Bool.not_eq_true'] at hleft
    exact ⟨hg, hleft.1, by simp [hleft.2]⟩
  have hh := (hmem h List.mem_cons_self).1
  refine .jumping hh (hm.handles_start hh) rfl
    (hm.nested.enclosing_of_covering (l := []) hcovering) ?_ ?_
  · intro g hg y hy
    obtain ⟨hgmem, hx, htarget'⟩ := hmem g hg
    refine hps.move fun k hk hkx => ?_
    have hky := hm.jumps k hk x i label target hkx hi hlabel htarget
    exact (hm.nested.inside_of_leaving hk hgmem hx htarget' hkx hky).handles
      (hm.nested.shaped g hgmem) hy
  · exact hps.move fun k hk hkx => hm.jumps k hk x i label target hkx hi hlabel htarget

/-- The handlers of an error begin. -/
theorem failing (hm : m.Structured regions) (hcovering : covering regions x = h :: rest) :
    Handling regions h.handlerStart (⟨h.handlerStart, rest, .fail c⟩ :: ps) := by
  have hh : h ∈ regions := mem_of_covering hcovering List.mem_cons_self
  exact .failing hh (hm.handles_start hh) rfl
    (hm.nested.enclosing_of_covering (l := []) hcovering)

/-- The next handler begins. -/
theorem next {p : Pending} (hm : m.Structured regions) (hps : Handling regions x (p :: ps))
    (hrest : p.rest = h :: rest) :
    Handling regions h.handlerStart (⟨h.handlerStart, rest, p.completion⟩ :: ps) := by
  cases hps with
  | failing hg _ hc henclosing =>
    rw [hrest] at henclosing
    have hh : h ∈ regions := mem_of_enclosing henclosing List.mem_cons_self
    exact .failing hh (hm.handles_start hh) hc
      (hm.nested.enclosing_of_enclosing hg (l := []) henclosing)
  | jumping hg _ hc henclosing hbelow htarget =>
    rw [hrest] at henclosing
    have hh : h ∈ regions := mem_of_enclosing henclosing List.mem_cons_self
    refine .jumping hh (hm.handles_start hh) hc
      (hm.nested.enclosing_of_enclosing hg (l := []) henclosing) ?_ htarget
    intro k hk
    exact hbelow k (List.mem_cons_of_mem _ (hrest ▸ hk))

/-- Control goes on behind the handlers of a jump. -/
theorem landing {p : Pending} (hps : Handling regions x (p :: ps)) (hc : p.completion = .jump target) :
    Handling regions target ps := by
  cases hps with
  | failing _ _ hc' =>
    rw [hc] at hc'
    cases hc'
  | jumping _ _ hc' _ _ htarget =>
    rw [hc] at hc'
    cases hc'
    exact htarget

end Method.Structured

namespace Activation.Confined

variable {a b : Activation} {i : Instruction} {s t : Store}

/-- An instruction leaves no handler, unless it is one that ends handlers. -/
theorem stays (ha : a.Confined) (hi : a.instruction? = some i) (hcontrol : i.isControl = false)
    (hexec : a.Executes s i b t) : ∀ g ∈ a.regions, g.Handles a.pc → g.Handles b.pc := by
  intro g hg hx
  rcases hexec.pc with ⟨hpc, hbranch⟩ | ⟨label, hlabel, htarget⟩
  · rw [hpc]
    refine ha.structured.falls g hg _ i hx hi ?_
    cases i with
    | branch label => exact absurd rfl (hbranch label)
    | ret | leave | endFinally => cases hcontrol
    | _ => rfl
  · exact ha.structured.jumps g hg _ i label _ hx hi hlabel htarget

/-- The handler that runs has the instruction that comes next. -/
theorem handles (ha : a.Confined) {p : Pending} {ps : List Pending} (hp : a.pending = p :: ps) :
    ∃ g ∈ a.regions, g.Handles a.pc := by
  have hhandling := ha.handling
  rw [hp] at hhandling
  cases hhandling with
  | failing hg hx => exact ⟨_, hg, hx⟩
  | jumping hg hx => exact ⟨_, hg, hx⟩

theorem executed (ha : a.Confined) (hi : a.instruction? = some i) (hcontrol : i.isControl = false)
    (hexec : a.Executes s i b t) : b.Confined := by
  have hsame := hexec.same
  refine ⟨by rw [hsame.method, hsame.regions]; exact ha.structured, ?_⟩
  rw [hsame.regions, hsame.pending]
  exact ha.handling.move (ha.stays hi hcontrol hexec)

/-- A call leaves no handler when it returns. -/
theorem stays_call {ref : MethodRef} (ha : a.Confined) (hi : a.instruction? = some (.call ref)) :
    ∀ g ∈ a.regions, g.Handles a.pc → g.Handles (a.pc + 1) :=
  fun g hg hx => ha.structured.falls g hg _ _ hx hi rfl

theorem resumed {ref : MethodRef} (ha : a.Confined) (hi : a.instruction? = some (.call ref))
    (stack : List Value) : ({ a with stack := stack }.advance : Activation).Confined :=
  ⟨ha.structured, ha.handling.move (ha.stays_call hi)⟩

end Activation.Confined

namespace Run

variable {program : Module} {limits : Limits} {callers : List Activation} {a : Activation}
  {s : Store} {steps : Nat} {c : Crash} {r : Run} {es : List Incident} {p : Progress}

theorem confined_raise : ∀ {callers : List Activation} {a : Activation} {s : Store}, a.Confined →
    (∀ b ∈ callers, b.Confined ∧ ∃ ref, b.instruction? = some (.call ref)) →
    (raise s steps c a callers).Confined := by
  intro callers
  induction callers with
  | nil =>
    intro a s ha hcallers
    cases hcovering : a.covering with
    | nil =>
      rw [raise_of_covering_nil hcovering]
      trivial
    | cons region rest =>
      rw [raise_of_covering_cons hcovering]
      exact ⟨⟨ha.structured, ha.structured.failing hcovering⟩, hcallers⟩
  | cons caller callers ih =>
    intro a s ha hcallers
    cases hcovering : a.covering with
    | nil =>
      rw [raise_of_covering_nil hcovering]
      obtain ⟨hcaller, hrest⟩ := List.forall_mem_cons.1 hcallers
      exact ih hcaller.1 hrest
    | cons region rest =>
      rw [raise_of_covering_cons hcovering]
      exact ⟨⟨ha.structured, ha.structured.failing hcovering⟩, hcallers⟩

theorem confined_resume {result : CallResult}
    (hcallers : ∀ b ∈ callers, b.Confined ∧ ∃ ref, b.instruction? = some (.call ref)) :
    (resume callers result s steps).Confined := by
  cases callers with
  | nil => trivial
  | cons caller callers =>
    obtain ⟨⟨hcaller, ref, hi⟩, hrest⟩ := List.forall_mem_cons.1 hcallers
    match result with
    | .error c => exact confined_raise hcaller hrest
    | .ok none => exact ⟨hcaller.resumed hi caller.stack, hrest⟩
    | .ok (some v) => exact ⟨hcaller.resumed hi (v :: caller.stack), hrest⟩

/-- Every step of a structured program keeps a run confined. -/
theorem Shows.confined (hprogram : program.Structured) (h : r.Shows program limits es p)
    (hr : r.Confined) : p.Confined := by
  obtain ⟨store, steps, a, callers⟩ := r
  obtain ⟨ha, hcallers⟩ := hr
  cases h with
  | executed _ hi hcontrol hexec => exact ⟨ha.executed hi hcontrol hexec, hcallers⟩
  | called _ hi hm _ henter =>
    obtain ⟨-, -, regions, hregions, rfl⟩ := Activation.enter_eq_ok.1 henter
    exact ⟨⟨hprogram _ (Module.mem_of_findMethod? hm) regions hregions, .idle⟩,
      List.forall_mem_cons.2 ⟨⟨⟨ha.structured, ha.handling⟩, _, hi⟩, hcallers⟩⟩
  | returned => exact confined_resume hcallers
  | crashes => exact confined_raise ha hcallers
  | givesUp => exact confined_resume hcallers
  | jumped _ hi hl _ =>
    exact ⟨⟨ha.structured, ha.handling.move fun g hg hx =>
      ha.structured.jumps g hg _ _ _ _ hx hi rfl hl⟩, hcallers⟩
  | left _ hi hl hleaving =>
    exact ⟨⟨ha.structured, ha.structured.jumping hi rfl hl ha.handling hleaving⟩, hcallers⟩
  | nextHandler _ _ hpending hrest =>
    have hhandling := ha.handling
    rw [hpending] at hhandling
    exact ⟨⟨ha.structured, ha.structured.next hhandling hrest⟩, hcallers⟩
  | jumpDone _ _ hpending _ hc =>
    have hhandling := ha.handling
    rw [hpending] at hhandling
    exact ⟨⟨ha.structured, Method.Structured.landing hhandling hc⟩, hcallers⟩
  | crashDone => exact confined_resume hcallers

end Run

end ManagedC
