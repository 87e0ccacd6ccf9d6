import ManagedC.Proofs.Startup.Call
import ManagedC.Proofs.Startup.Unwritten

/-!
# What the entry function returns is the exit code

A forward run of the starter after its call, counting steps: whatever the entry function has done to
memory, the starter keeps what it returns, unpins one list, gives the copies back and returns the
value. Main statement: `EntryPoint.ends_returned`.
-/

namespace ManagedC

/-- A run ends with a value. -/
abbrev Progress.EndsWith (program : Module) (limits : Limits) (value : Value) (p : Progress) : Prop :=
  p.Eventually program limits fun result _ => result = .ok (some value)

namespace EntryPoint

open Progress (EndsWith)

variable {program : Module} {limits : Limits} {entry : MethodRef} {arg argc copy : Value}
  {args : List String} {first argv id steps : Nat} {s : Store} {value : Value}

/-- What the starter still needs after its call: the list that it gives back, its copies, and the list
that it has pinned. -/
structure Keeps (args : List String) (first argv id : Nat) (h : Heap) : Prop where
  /-- The list that is given back. -/
  argv : h.objects[argv]? = some (.array .nativeString
    (pointersTo first args.length ++ [Value.null]).toArray 0)
  /-- The copies are in use. -/
  blocks : ∀ k, first ≤ k → k < first + args.length → ∃ bytes, h.blocks[k]? = some (.live bytes)
  /-- The list that is pinned. -/
  pinned : ∃ elements, h.objects[id]? = some (.array .nativeString elements 1)

/-- The outer handler gives the copies back, and the call returns the value that it has kept. -/
theorem ends_freeing {pin : Value}
    (hargv : s.heap.objects[argv]? = some (.array .nativeString
      (pointersTo first args.length ++ [Value.null]).toArray 0))
    (hblocks : ∀ k, first ≤ k → k < first + args.length →
      ∃ bytes, s.heap.blocks[k]? = some (.live bytes)) (hlimit : steps + 5 ≤ limits.steps) :
    EndsWith program limits value (.more ⟨s, steps, frame entry arg
      #[argc, .object argv, copy, pin, value] [] 33 [⟨33, [], .jump 36⟩], []⟩) := by
  obtain ⟨t, hfree, -⟩ := Access.yields_freeArgv hargv hblocks
  have hcall : Yields (Access.callHelper .freeArgv [.object argv]) s none t :=
    Yields.bind_iff.2 ⟨(), t, hfree, Yields.pure_iff.2 ⟨rfl, rfl⟩⟩
  have hlt : ∀ k, k < 5 → steps + k < limits.steps := fun k hk => by omega
  refine .executed (hlt 0 (by decide)) rfl rfl (.loadLocal rfl) ?_
  refine .executed (hlt 1 (by decide)) rfl rfl (.callHelper (Nat.le_refl 1) hcall) ?_
  refine .step (.jumpDone (hlt 2 (by decide)) rfl rfl rfl rfl) ?_
  refine .executed (hlt 3 (by decide)) rfl rfl (.loadLocal rfl) ?_
  refine .step (.returned (hlt 4 (by decide)) rfl (.inr ⟨nofun, _, _, rfl, rfl⟩) rfl) ?_
  exact .done rfl

/-- The value that the entry function returns is kept, both handlers run, and it is returned. -/
theorem ends_resumed {v : Int64} {exit : Value} (hs : Keeps args first argv id s.heap)
    (hne : argv ≠ id) (hlimit : steps + 12 ≤ limits.steps) :
    EndsWith program limits (.int (TargetType.narrow .int32 v)) (.more ⟨s, steps, frame entry arg
      #[argc, .object argv, copy, .pointer ⟨.array id, 0, true⟩, exit] [.int v] 26 [], []⟩) := by
  obtain ⟨elements, hid⟩ := hs.pinned
  let heap : Heap := { s.heap with
    objects := s.heap.objects.setIfInBounds id (.array .nativeString elements 0) }
  have hunpin : s.heap.unpin id = .ok heap :=
    Heap.changePins_eq_ok.2 ⟨.nativeString, elements, 1, hid, rfl⟩
  have hstore := @Activation.yields_repin_unpin s (.pointer ⟨.array id, 0, true⟩) (.int 0) id heap rfl
    rfl hunpin
  have hargv : heap.objects[argv]? = some (.array .nativeString
      (pointersTo first args.length ++ [Value.null]).toArray 0) :=
    (Array.getElem?_setIfInBounds_ne hne.symm).trans hs.argv
  have hlt : ∀ k, k < 7 → steps + k < limits.steps := fun k hk => by omega
  refine .executed (hlt 0 (by decide)) rfl rfl (.storeLocal rfl rfl (Yields.pure_iff.2 ⟨rfl, rfl⟩)) ?_
  refine .step (.left (hlt 1 (by decide)) rfl rfl rfl) ?_
  refine .executed (hlt 2 (by decide)) rfl rfl .constInt32 ?_
  refine .executed (hlt 3 (by decide)) rfl rfl (.onTop rfl rfl rfl) ?_
  refine .executed (hlt 4 (by decide)) rfl rfl (.storeLocal rfl rfl hstore) ?_
  refine .step (.jumpDone (hlt 5 (by decide)) rfl rfl rfl rfl) ?_
  refine .step (.left (hlt 6 (by decide)) rfl rfl rfl) ?_
  exact ends_freeing hargv hs.blocks (by omega)

/-- What the entry function returns is the value that the run ends with, cut down to 32 bits. -/
theorem ends_returned {run : Run} {t : Store} {v : Int64} {rest : List Value}
    (hs : Keeps args first argv id t.heap) (hne : argv ≠ id)
    (hrun : run.Hosted (lent id) [frame entry arg #[argc, .object argv, copy,
      .pointer ⟨.array id, 0, true⟩, .int 0] [] 25 []] t)
    (hlength : run.callers.length = 1) (hi : run.current.instruction? = some .ret)
    (hreturn : run.current.method.returnType ≠ .void) (hstack : run.current.stack = .int v :: rest)
    (hlimit : run.steps + 13 ≤ limits.steps) :
    EndsWith program limits (.int (TargetType.narrow .int32 v)) (.more run) := by
  obtain ⟨u, steps, a, callers⟩ := run
  obtain ⟨ha, ⟨guests, hcallers, -⟩, -, hunharmed⟩ := hrun
  dsimp only at ha hcallers hlength hi hreturn hstack hlimit hunharmed
  subst hcallers
  obtain rfl : guests = [] := by
    cases guests with
    | nil => rfl
    | cons => simp at hlength
  have hpending : a.pending = [] := ha.elim (·.pending) (·.pending)
  have hclose : a.close u = u.closed := ha.elim (·.close u) (·.close u)
  have hkeeps : Keeps args first argv id u.heap := by
    refine ⟨(hunharmed.heap.outside argv hne).trans hs.argv, fun k hlow hhigh => ?_, ?_⟩
    · obtain ⟨bytes, hbytes⟩ := hs.blocks k hlow hhigh
      have hlive := hunharmed.heap.live k
      rw [hbytes] at hlive
      obtain ⟨block, hblock, hlive⟩ := Option.map_eq_some_iff.1 hlive
      cases block with
      | live bytes => exact ⟨bytes, hblock⟩
      | freed => cases hlive
    · obtain ⟨elements, hid⟩ := hs.pinned
      obtain ⟨elements', hid', -⟩ := hunharmed.heap.arrays id _ _ _ hid
      exact ⟨elements', hid'⟩
  have hfirst : steps < limits.steps := by omega
  refine .step (.returned hfirst hi (.inr ⟨hreturn, _, _, hstack, rfl⟩) hpending) ?_
  dsimp only
  rw [hclose]
  exact ends_resumed hkeeps hne (by omega)

/-- An exit code has 32 bits. -/
theorem exitCodeOf_narrow (method : String) (v : Int64) :
    Session.exitCodeOf method (.ok (some (.int (TargetType.narrow .int32 v)))) = .ok v.toInt32 := by
  have hlow : -2 ^ 31 ≤ v.toInt.bmod (2 ^ 32) := Int.le_bmod (by decide)
  have hhigh : v.toInt.bmod (2 ^ 32) < 2 ^ 31 := Int.bmod_lt (by decide)
  have hint : (TargetType.narrow .int32 v).toInt32 = v.toInt32 := by
    show (Int64.ofInt (v.toInt.bmod (2 ^ 32))).toInt32 = v.toInt32
    rw [← Int32.toInt_inj, Int64.toInt_toInt32, Int64.toInt_toInt32,
      Int64.toInt_ofInt_of_le (by omega) (by omega), Int.bmod_bmod]
  show Except.ok (TargetType.narrow .int32 v).toInt32 = _
  rw [hint]

end EntryPoint

end ManagedC
