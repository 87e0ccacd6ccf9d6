import ManagedC.Compile.EntryPoint
import ManagedC.Proofs.Computation

/-!
# The method of the starter

The starter is the same for every entry function, up to the reference of the method that it calls. It
is written down here as a whole. Main statement: what is assembled for an entry function is this
method (`EntryPoint.starter_eq_ok`).
-/

namespace ManagedC.EntryPoint

/-- The starter of an entry function. The outer region spans the instructions from 7 on, its handler
starts at 33; the inner one spans those from 18 on, its handler starts at 28. -/
def bridge (entry : MethodRef) : Method where
  name := starterName
  attributes := .publicStatic
  returnType := .int32
  parameters := [⟨some "args", .hostArguments⟩]
  locals := #[⟨some "argc", .int32, false⟩, ⟨some "argv", .nativeStrings, false⟩,
    ⟨some "argv_copy", .nativeStrings, false⟩, ⟨some "pinned_argv", .byRef .nativeString, true⟩,
    ⟨some "exit_code", .int32, false⟩]
  body := {
    instructions := #[.loadArgument 0, .arrayLength, .convInt32, .storeLocal 0,
      .loadArgument 0, .callHelper .argsToArgv, .storeLocal 1,
      .loadLocal 1, .arrayLength, .convInt32, .newArray .nativeString, .storeLocal 2,
      .loadLocal 1, .loadLocal 2, .loadLocal 1, .arrayLength, .convInt32, .callHelper .arrayCopy,
      .loadLocal 2, .constInt32 0, .elementAddress .nativeString, .storeLocal 3,
      .loadLocal 0, .loadLocal 3, .convAddress, .call entry, .storeLocal 4, .leave 3,
      .constInt32 0, .convAddress, .storeLocal 3, .endFinally, .leave 1,
      .loadLocal 1, .callHelper .freeArgv, .endFinally, .loadLocal 4, .ret]
    labels := ⟨[(0, 7), (1, 36), (2, 18), (3, 32), (4, 28), (5, 33)], by decide⟩
    handlers := [⟨2, 4, 4, 3⟩, ⟨0, 5, 5, 1⟩] }

/-- The code of the starter is assembled without a fault. -/
theorem starterCode_emptyStarter (entry : MethodRef) :
    starterCode entry emptyStarter = (.ok (), ⟨bridge entry, 6, []⟩) := by
  cbv

theorem finish_bridge (entry : MethodRef) : (⟨bridge entry, 6, []⟩ : Assembler).finish =
    .ok (bridge entry) := rfl

/-- There is a starter for entry functions that it can call only, and it is the method above. -/
theorem starter_eq_ok {entry : MethodRef} {m : Method} (h : starter entry = .ok m) :
    isBridgeable entry = true ∧ m = bridge entry := by
  unfold starter at h
  split at h
  · rename_i hb
    rw [starterCode_emptyStarter] at h
    refine ⟨hb, ?_⟩
    have h := Except.mapError_eq_ok.1 h
    obtain ⟨_, _, h⟩ := Except.bind_eq_ok.1 h
    rw [finish_bridge] at h
    cases h
    rfl
  · cases h

/-- The protected regions of the starter, the inner one first. -/
def bridgeRegions : List Region := [⟨18, 28, 28, 32⟩, ⟨7, 33, 33, 36⟩]

theorem regions_bridge (entry : MethodRef) :
    (bridge entry).body.handlers.mapM (bridge entry).body.region? = some bridgeRegions := rfl

end ManagedC.EntryPoint
