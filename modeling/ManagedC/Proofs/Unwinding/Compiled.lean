import ManagedC.Proofs.Emit.FunctionCode
import ManagedC.Proofs.Emit.StarterCode
import ManagedC.Proofs.Unwinding.TryFinally

/-!
# Compiled programs are structured

A compiled function has no handlers. The starter has two: that of the region around the call unpins the
array of pointers, that of the region around it gives the native copies back, and neither is left before
its end. Main statement: every compiled program is structured (`TranslationUnit.structured_of_compile`),
so that every run of it treats regions and handlers as `Session.invoke_tryFinally` says.
-/

namespace ManagedC

/-- A method without handlers is structured. -/
theorem Method.structured_nil (m : Method) : m.Structured [] :=
  structured_of_keeps ⟨by simp, .nil⟩ (by simp)

/-- The starter is structured. -/
theorem EntryPoint.structured_bridge (entry : MethodRef) :
    (bridge entry).Structured bridgeRegions := by
  refine Method.structured_of_keeps ⟨?_, by decide⟩ ?_
  · unfold bridgeRegions
    rw [List.forall_mem_cons, List.forall_mem_singleton]
    exact ⟨⟨by decide, by decide, by decide⟩, ⟨by decide, by decide, by decide⟩⟩
  · -- The reference of the entry function is not part of any handler.
    exact of_decide_eq_true rfl

/-- Every compiled program is structured. -/
theorem TranslationUnit.structured_of_compile {unit : TranslationUnit} {name : String} {m : Module}
    (h : unit.compile name = .ok m) : m.Structured := by
  obtain ⟨fs, p, hbuilt, rfl, -⟩ := built_of_compile h
  intro m hm regions hregions
  rcases hbuilt.mem_methods hm with ⟨f, -, rfl⟩ | ⟨f, -, -, hstarter⟩
  · rw [f.code.handlers] at hregions
    obtain rfl : [] = regions := Option.some.inj hregions
    exact f.method.structured_nil
  · obtain ⟨-, rfl⟩ := EntryPoint.starter_eq_ok hstarter
    rw [EntryPoint.regions_bridge] at hregions
    obtain rfl := Option.some.inj hregions
    exact EntryPoint.structured_bridge _

end ManagedC
