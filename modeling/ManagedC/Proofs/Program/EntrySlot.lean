import ManagedC.Proofs.Program.CallTargets

/-!
# The entry point is set once

Whether the entry point may be set is judged by the method it designates, and not by whether there
is a number in the slot. The two agree for a module that was built from nothing, but a document can
describe a module whose entry point is the number of no method: such a slot is taken for an empty
one, so it can be written again, and adding methods can make it designate one. A slot that
designates a method is never written again, whatever is done to the module. Main statement:
`Module.performAll_entrySlot`.
-/

namespace ManagedC.Module

/-- What can be done to the methods and the entry point of a module. -/
inductive Operation where
  | addMethod (method : Method)
  /-- The entry point is set, or refused. -/
  | setEntryPoint (id : Nat)

/-- The module after an operation. One that is refused leaves it as it was. -/
def perform (m : Module) : Operation → Module
  | .addMethod method => m.addMethod method
  | .setEntryPoint id =>
    match m.setEntryPoint id with
    | .ok m' => m'
    | .error _ => m

/-- The module after operations, one after the other. -/
def performAll (m : Module) (operations : List Operation) : Module := operations.foldl perform m

/-- The entry point is this method, which has this number. -/
structure Designates (m : Module) (id : Nat) (method : Method) : Prop where
  /-- The number is in the slot. -/
  entryPoint : m.entryPoint = some id
  /-- The method with the number. -/
  method : m.methods[id]? = some method

/-- Why the entry point cannot be set to a method with some number, when it is set already. -/
def refusal (m : Module) (existing : Method) (id : Nat) : EntryPointFault :=
  match m.methods[id]? with
  | none => .unknownMethod id
  | some requested => .alreadySet existing.name requested.name

variable {m m' : Module} {id : Nat} {method : Method}

/-! ## The slot and the method it designates -/

theorem entryMethod?_eq_some_iff : m.entryMethod? = some method ↔ ∃ id, m.Designates id method := by
  constructor
  · intro h
    obtain ⟨id, hid, hmethod⟩ := Option.bind_eq_some_iff.mp h
    exact ⟨id, hid, hmethod⟩
  · rintro ⟨id, hid, hmethod⟩
    exact Option.bind_eq_some_iff.mpr ⟨id, hid, hmethod⟩

theorem Designates.entryMethod? (h : m.Designates id method) : m.entryMethod? = some method :=
  entryMethod?_eq_some_iff.mpr ⟨id, h⟩

/-! ## One operation -/

/-- The entry point can be set exactly when it designates no method, and then to every method. -/
theorem setEntryPoint_eq_ok_iff :
    m.setEntryPoint id = .ok m' ↔
      id < m.methods.size ∧ m.entryMethod? = none ∧ m' = { m with entryPoint := some id } := by
  unfold setEntryPoint
  rcases Nat.lt_or_ge id m.methods.size with hlt | hge
  · rw [Array.getElem?_eq_getElem hlt]
    cases hentry : m.entryMethod? with
    | none => simp [hlt, pure, Except.pure, eq_comm]
    | some existing => simp [throw, throwThe, MonadExceptOf.throw]
  · rw [Array.getElem?_eq_none hge]
    simp [Nat.not_lt.mpr hge, throw, throwThe, MonadExceptOf.throw]

theorem Designates.setEntryPoint (h : m.Designates id method) (id' : Nat) :
    m.setEntryPoint id' = .error (m.refusal method id') := by
  unfold Module.setEntryPoint refusal
  rw [h.entryMethod?]
  cases m.methods[id']? <;> rfl

/-- Setting the entry point does nothing, or the slot designated no method and now does. -/
theorem perform_setEntryPoint (m : Module) (id : Nat) :
    m.perform (.setEntryPoint id) = m ∨
      m.entryMethod? = none ∧ ∃ method, (m.perform (.setEntryPoint id)).Designates id method := by
  simp only [perform]
  cases hset : m.setEntryPoint id with
  | error fault => exact .inl rfl
  | ok m' =>
    obtain ⟨hlt, hnone, rfl⟩ := setEntryPoint_eq_ok_iff.mp hset
    exact .inr ⟨hnone, m.methods[id], rfl, Array.getElem?_eq_getElem hlt⟩

theorem Designates.perform (h : m.Designates id method) (o : Operation) :
    (m.perform o).Designates id method := by
  cases o with
  | addMethod added => exact ⟨h.entryPoint, getElem?_push_of_some h.method⟩
  | setEntryPoint id' =>
    rcases perform_setEntryPoint m id' with heq | ⟨hnone, -⟩
    · rw [heq]
      exact h
    · rw [h.entryMethod?] at hnone
      cases hnone

/-- After an operation the slot designates a method, or what is in it is what was in it. -/
theorem entryMethod?_perform_eq_none (o : Operation) (h : (m.perform o).entryMethod? = none) :
    (m.perform o).entryPoint = m.entryPoint := by
  cases o with
  | addMethod added => rfl
  | setEntryPoint id =>
    rcases perform_setEntryPoint m id with heq | ⟨-, method, hd⟩
    · rw [heq]
    · rw [hd.entryMethod?] at h
      cases h

/-! ## Operations one after the other -/

theorem performAll_cons (m : Module) (o : Operation) (operations : List Operation) :
    m.performAll (o :: operations) = (m.perform o).performAll operations := rfl

theorem Designates.performAll (h : m.Designates id method) (operations : List Operation) :
    (m.performAll operations).Designates id method := by
  induction operations generalizing m with
  | nil => exact h
  | cons o operations ih =>
    rw [performAll_cons]
    exact ih (h.perform o)

/-- After operations the slot designates a method, or what is in it is what was in it. -/
theorem entryMethod?_performAll_eq_none (operations : List Operation)
    (h : (m.performAll operations).entryMethod? = none) :
    (m.performAll operations).entryPoint = m.entryPoint := by
  induction operations generalizing m with
  | nil => rfl
  | cons o operations ih =>
    rw [performAll_cons] at h ⊢
    -- Had the first operation made it designate a method, it would still do.
    have hone : (m.perform o).entryMethod? = none := by
      cases hentry : (m.perform o).entryMethod? with
      | none => rfl
      | some method =>
        obtain ⟨id, hd⟩ := entryMethod?_eq_some_iff.mp hentry
        rw [(hd.performAll operations).entryMethod?] at h
        cases h
    rw [ih h, entryMethod?_perform_eq_none o hone]

/-- A slot that was empty or designated a method designates one whenever there is a number in it. -/
theorem entryMethod?_performAll_ne_none (operations : List Operation)
    (hstart : m.entryPoint = none ∨ m.entryMethod? ≠ none)
    (hset : (m.performAll operations).entryPoint = some id) :
    (m.performAll operations).entryMethod? ≠ none := by
  intro h
  have hkept := entryMethod?_performAll_eq_none operations h
  rcases hstart with hnone | hsome
  · rw [hkept, hnone] at hset
    cases hset
  · obtain ⟨method, hmethod⟩ := Option.ne_none_iff_exists'.mp hsome
    obtain ⟨id, hd⟩ := entryMethod?_eq_some_iff.mp hmethod
    rw [(hd.performAll operations).entryMethod?] at h
    cases h

/-- What becomes of an entry point that is set after some operations. If the slot was empty at the
start or designated a method then, it designates one now. If it designates a method, then whatever
is done later, the same number stays in it, it designates the same method, and it cannot be set. If
it designates none, then whatever is done later, the number stays in it and it can be set to every
method, until it designates a method; that one is final. -/
theorem performAll_entrySlot (m : Module) (earlier later : List Operation) (id : Nat)
    (hset : (m.performAll earlier).entryPoint = some id) :
    let now := (m.performAll earlier).performAll later
    (m.entryPoint = none ∨ m.entryMethod? ≠ none → (m.performAll earlier).entryMethod? ≠ none) ∧
    match (m.performAll earlier).entryMethod? with
    | some method => now.entryPoint = some id ∧ now.entryMethod? = some method ∧
        ∀ id', now.setEntryPoint id' = .error (now.refusal method id')
    | none =>
      match now.entryMethod? with
      | some method => ∀ id', now.setEntryPoint id' = .error (now.refusal method id')
      | none => now.entryPoint = some id ∧
          ∀ id' < now.methods.size, now.setEntryPoint id' = .ok { now with entryPoint := some id' } := by
  intro now
  refine ⟨fun hstart => entryMethod?_performAll_ne_none earlier hstart hset, ?_⟩
  cases hthen : (m.performAll earlier).entryMethod? with
  | some method =>
    obtain ⟨id', hd⟩ := entryMethod?_eq_some_iff.mp hthen
    obtain rfl : id' = id := Option.some.inj (hd.entryPoint.symm.trans hset)
    have hnow := hd.performAll later
    exact ⟨hnow.entryPoint, hnow.entryMethod?, hnow.setEntryPoint⟩
  | none =>
    cases hnow : now.entryMethod? with
    | some method =>
      obtain ⟨id', hd⟩ := entryMethod?_eq_some_iff.mp hnow
      exact hd.setEntryPoint
    | none =>
      refine ⟨(entryMethod?_performAll_eq_none later hnow).trans hset, fun id' hlt => ?_⟩
      exact setEntryPoint_eq_ok_iff.mpr ⟨hlt, hnow, rfl⟩

/-- A method that returns at once. -/
def idle (name : String) : Method where
  name := name
  attributes := ⟨true, true⟩
  returnType := .void
  parameters := []
  locals := #[]
  body := { instructions := #[.ret] }

theorem performAll_entrySlot_main :
    let m : Module := { name := "program" }
    let earlier : List Operation :=
      [.setEntryPoint 7, .addMethod (idle "main"), .addMethod (idle "other"), .setEntryPoint 0]
    let now := (m.performAll earlier).performAll [.setEntryPoint 1, .addMethod (idle "main")]
    (m.performAll earlier).entryPoint = some 0 ∧
      now.entryPoint = some 0 ∧ now.entryMethod? = some (idle "main") ∧
      now.setEntryPoint 1 = .error (.alreadySet "main" "other") := by
  intro m earlier now
  have hset : (m.performAll earlier).entryPoint = some 0 := by decide
  have hmain : (m.performAll earlier).entryMethod? = some (idle "main") := by decide
  have hslot := (performAll_entrySlot m earlier
    [.setEntryPoint 1, .addMethod (idle "main")] 0 hset).2
  rw [hmain] at hslot
  exact ⟨hset, hslot.1, hslot.2.1, (hslot.2.2 1).trans (by decide)⟩

/-- A module whose entry point is the number of a method that it does not have. -/
def ahead : Module := ⟨"ahead", #[idle "main"], some 1⟩

/-- The document of `ahead` is read, its entry point is set, and then it is set again. -/
theorem setEntryPoint_ahead :
    ofJson? 8 ahead.toJson = some ahead ∧ ahead.entryPoint.isSome ∧
      ∃ m, ahead.setEntryPoint 0 = .ok m ∧ m.entryPoint ≠ ahead.entryPoint ∧
        m.entryMethod? ≠ ahead.entryMethod? := by
  refine ⟨?_, rfl, { ahead with entryPoint := some 0 }, ?_, ?_, ?_⟩
  all_goals decide +kernel

end ManagedC.Module
