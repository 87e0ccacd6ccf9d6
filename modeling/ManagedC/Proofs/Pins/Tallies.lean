import ManagedC.Proofs.Pins.Sessions

/-!
# Pins and pointers to nowhere

A host may pass pointers into arrays that do not exist. The discipline is lost then: such pointers get
everywhere, except into pinned variables, because a store that cannot pin faults. What is left is that
pinned variables point into arrays that exist (`Activation.Anchored`), and a comparison between the
pins of an array and those that calls hold (`Tallied`): as often as not both change alike, but a store
that faults after it let go of an array takes a pin away that the variable still holds
(`Activation.slips`). Main statements: a step keeps the comparison unless it slips
(`Run.tallied_stepsTo`), and the end of a call undoes each pin that the call holds
(`Activation.releases`).
-/

namespace ManagedC

open Activation (pinTarget? unpinOld pinNew repin heldBy)

/-- The pinned variables of a call point into arrays that exist. -/
structure Activation.Anchored (h : Heap) (a : Activation) : Prop where
  /-- Every variable has a value. -/
  size : a.locals.size = a.method.locals.size
  /-- The pinned ones point into arrays that exist. -/
  pinned : ∀ {slot : Nat} {declared : LocalVariable} {v : Value},
    a.method.locals[slot]? = some declared → declared.pinned = true → a.locals[slot]? = some v →
    h.Knows v

/-- Whether a store to a local variable slips: the variable is pinned and points into an array, and the
value points to something that cannot be pinned. -/
def Activation.slips (a : Activation) (s : Store) (slot : UInt16) : Bool :=
  match a.method.locals[slot.toNat]?, pinTarget? (a.locals.getD slot.toNat .null), a.stack with
  | some declared, some _, v :: _ =>
    declared.pinned && (pinTarget? v).any fun id => (s.heap.pins? id).isNone
  | _, _, _ => false

/-- Whether the next instruction of a run is such a store. -/
def Run.slips (r : Run) : Bool :=
  match r.current.instruction? with
  | some (.storeLocal slot) => r.current.slips r.store slot
  | _ => false

/-- A comparison between how often an array is pinned and how many pins on it are held, which stays
when pins that are held are let go of and others are taken. -/
structure Balances (R : Nat → Nat → Prop) : Prop where
  /-- Nothing is held of a new array. -/
  zero : R 0 0
  /-- Pins are let go of, and others are taken. -/
  moved : ∀ {pinned held : Nat} (gone new : Nat), gone ≤ held → R pinned held →
    R (pinned - gone + new) (held - gone + new)

theorem Balances.eq : Balances (· = ·) := ⟨rfl, fun _ _ _ h => by rw [h]⟩

theorem Balances.le : Balances (· ≤ ·) := ⟨Nat.le_refl 0, fun _ _ _ h => by omega⟩

/-- The pins of arrays compare with the pins that calls hold. -/
structure Tallied (R : Nat → Nat → Prop) (frames : List Activation) (s : Store) : Prop where
  calls : ∀ a ∈ frames, a.Anchored s.heap
  pins : ∀ id n, s.heap.pins? id = some n → R n (heldBy frames (· == id))

/-- What is known while the machine runs and after the outermost call has ended. -/
def Progress.Tallied (R : Nat → Nat → Prop) : Progress → Prop
  | .more r => ManagedC.Tallied R r.frames r.store
  | .done _ store _ => ManagedC.Tallied R [] store

/-! ## Pins of one array -/

theorem Value.weight_eq (v : Value) (id : Nat) :
    v.weight (· == id) = if pinTarget? v = some id then 1 else 0 := by
  unfold weight
  cases pinTarget? v <;> simp

namespace Heap

variable {h h' : Heap} {v : Value} {id : Nat}

theorem changePins_eq_error {f : Fault} {change : Nat → Nat} :
    h.changePins id change = .error f ↔ h.pins? id = none ∧ f = .typeMismatch (.notPinnable id) := by
  unfold changePins pins?
  split <;> simp_all [throw, throwThe, MonadExceptOf.throw, pure, Except.pure, eq_comm]

/-- A heap knows a value if it has the arrays of a heap that knows it. -/
theorem Knows.of_map {change : Nat → Nat → Nat} (hv : h.Knows v)
    (hpins : ∀ id, h'.pins? id = (h.pins? id).map (change id)) : h'.Knows v := by
  intro id hid
  rw [hpins, Option.isSome_map]
  exact hv id hid

/-- A store through a pointer changes no pins, whatever is stored. -/
theorem pins?_store {p : Pointer} {type : TargetType} (hs : h.store p type v = .ok h') (id : Nat) :
    h'.pins? id = h.pins? id := by
  rcases store_eq_ok hs with ⟨_, _, _, -, -, rfl⟩ | ⟨k, element, elements, pins, index, -, ho, rfl⟩
  · rfl
  · rw [pins?_setIfInBounds (Array.getElem?_eq_some_iff.1 ho).1]
    split
    · rename_i hk
      rw [hk, pins?_eq_some.2 ⟨element, elements, ho⟩]
    · rfl

end Heap

namespace Activation

variable {s t : Store} {old new v : Value} {f : Fault}

theorem pins?_unpinOld (h : Yields (unpinOld old) s () t) (id : Nat) :
    t.heap.pins? id = (s.heap.pins? id).map (· - old.weight (· == id)) := by
  rw [Value.weight_eq]
  rcases yields_unpinOld h with ⟨hnone, rfl⟩ | ⟨k, heap, hk, hheap, rfl⟩
  · simp [hnone]
  · show heap.pins? id = _
    rw [Heap.pins?_changePins hheap, hk]
    by_cases heq : id = k
    · simp [heq]
    · simp [heq, Ne.symm heq]

theorem pins?_pinNew (h : Yields (pinNew new) s () t) (id : Nat) :
    t.heap.pins? id = (s.heap.pins? id).map (· + new.weight (· == id)) := by
  rw [Value.weight_eq]
  rcases yields_pinNew h with ⟨hnone, rfl⟩ | ⟨k, heap, hk, hheap, rfl⟩
  · simp [hnone]
  · show heap.pins? id = _
    rw [Heap.pins?_changePins hheap, hk]
    by_cases heq : id = k
    · simp [heq]
    · simp [heq, Ne.symm heq]

/-- What was pinned exists. -/
theorem knows_pinNew (h : Yields (pinNew new) s () t) : t.heap.Knows new := by
  intro id hid
  rcases yields_pinNew h with ⟨hnone, rfl⟩ | ⟨k, heap, hk, hheap, rfl⟩
  · rw [hnone] at hid
    cases hid
  · obtain rfl : k = id := Option.some.inj (hk.symm.trans hid)
    obtain ⟨element, elements, n, ho, -⟩ := Heap.changePins_eq_ok.1 hheap
    show (heap.pins? k).isSome = true
    rw [Heap.pins?_changePins hheap, if_pos rfl, Heap.pins?_eq_some.2 ⟨element, elements, ho⟩]
    rfl

theorem fails_unpinOld (h : Fails (unpinOld old) s f t) : ¬ s.heap.Knows old := by
  intro hold
  unfold unpinOld at h
  split at h
  · rename_i id hid
    rcases Fails.bind_iff.1 h with h | ⟨_, _, -, h⟩
    · obtain ⟨hnone, -⟩ := Heap.changePins_eq_error.1 (Access.fails_update.1 h).1
      have hsome := hold id hid
      rw [hnone] at hsome
      cases hsome
    · rcases Fails.bind_iff.1 h with h | ⟨_, _, -, h⟩
      · exact Fails.not_modify h
      · exact Fails.not_modify h
  · exact Fails.not_pure h

theorem fails_pinNew (h : Fails (pinNew new) s f t) : t = s ∧ ∃ id, pinTarget? new = some id ∧
    s.heap.pins? id = none ∧ f = .typeMismatch (.notPinnable id) := by
  unfold pinNew at h
  split at h
  · rename_i id hid
    rcases Fails.bind_iff.1 h with h | ⟨_, _, -, h⟩
    · obtain ⟨herror, rfl⟩ := Access.fails_update.1 h
      obtain ⟨hnone, rfl⟩ := Heap.changePins_eq_error.1 herror
      exact ⟨rfl, id, hid, hnone, rfl⟩
    · rcases Fails.bind_iff.1 h with h | ⟨_, _, -, h⟩
      · exact absurd h Fails.not_modify
      · exact absurd h Fails.not_modify
  · exact absurd h Fails.not_pure

/-- If a store to a pinned variable faults, then the old array has been let go of, and the new one
cannot be pinned. -/
theorem fails_repin (hold : s.heap.Knows old) (h : Fails (repin true old new) s f t) :
    Yields (unpinOld old) s () t ∧ ∃ id, pinTarget? new = some id ∧ s.heap.pins? id = none ∧
      f = .typeMismatch (.notPinnable id) := by
  rcases Fails.bind_iff.1 h with h | ⟨_, u, hunpin, hpin⟩
  · exact absurd hold (fails_unpinOld h)
  · obtain ⟨rfl, id, hid, hnone, rfl⟩ := fails_pinNew hpin
    refine ⟨hunpin, id, hid, ?_, rfl⟩
    rw [pins?_unpinOld hunpin id, Option.map_eq_none_iff] at hnone
    exact hnone

end Activation

/-! ## Calls -/

namespace Activation

variable {h h' : Heap} {a b : Activation} {s t : Store} {slot : Nat} {declared : LocalVariable}

namespace Anchored

theorem mono (ha : a.Anchored h) (hk : ∀ v, h.Knows v → h'.Knows v) : a.Anchored h' :=
  ⟨ha.size, fun hd hp hv => hk _ (ha.pinned hd hp hv)⟩

theorem replace (ha : a.Anchored h) (hmethod : b.method = a.method) (hlocals : b.locals = a.locals) :
    b.Anchored h := by
  refine ⟨by rw [hlocals, hmethod, ha.size], fun hd hp hv => ?_⟩
  rw [hmethod] at hd
  rw [hlocals] at hv
  exact ha.pinned hd hp hv

/-- A call that begins has no pointers in its variables. -/
theorem of_nowhere (hsize : a.locals.size = a.method.locals.size)
    (hnowhere : ∀ v ∈ a.locals, pinTarget? v = none) : a.Anchored h :=
  ⟨hsize, fun _ _ hv => Heap.knows_of_none (hnowhere _ (Array.mem_of_getElem? hv))⟩

/-- The variable that a declaration stands for. -/
theorem getElem?_locals (ha : a.Anchored h) (hdeclared : a.method.locals[slot]? = some declared) :
    a.locals[slot]? = some (a.locals.getD slot .null) := by
  have hslot : slot < a.locals.size := by
    rw [ha.size]
    exact (Array.getElem?_eq_some_iff.1 hdeclared).1
  rw [Array.getD_eq_getD_getElem?, Array.getElem?_eq_getElem hslot]
  rfl

/-- A variable gets a new value. -/
theorem setLocal (ha : a.Anchored h) {v : Value} (hdeclared : a.method.locals[slot]? = some declared)
    (hv : declared.pinned = true → h.Knows v) :
    ({ a with locals := a.locals.setIfInBounds slot v } : Activation).Anchored h := by
  refine ⟨by rw [Array.size_setIfInBounds]; exact ha.size, @fun slot' declared' w hd hp hw => ?_⟩
  dsimp only at hd hw
  by_cases heq : slot = slot'
  · subst heq
    obtain rfl : declared = declared' := Option.some.inj (hdeclared.symm.trans hd)
    have hlt := (Array.getElem?_eq_some_iff.1 (ha.getElem?_locals hdeclared)).1
    rw [Array.getElem?_setIfInBounds_self_of_lt hlt] at hw
    obtain rfl := Option.some.inj hw
    exact hv hp
  · rw [Array.getElem?_setIfInBounds_ne heq] at hw
    exact ha.pinned hd hp hw

end Anchored

/-- A store to a pinned variable that faults has let go of the old array, and the new one cannot be
pinned. -/
theorem fails_storeLocal_pinned (ha : a.Anchored s.heap) {slot : UInt16} {v : Value}
    {rest : List Value} {f : Fault} (hdeclared : a.method.locals[slot.toNat]? = some declared)
    (hpinned : declared.pinned = true) (hstack : a.stack = v :: rest)
    (hf : Fails (a.execute (.storeLocal slot)) s f t) :
    Yields (unpinOld (a.locals.getD slot.toNat .null)) s () t ∧
      ∃ id, pinTarget? v = some id ∧ s.heap.pins? id = none ∧
        f = .typeMismatch (.notPinnable id) := by
  rcases fails_storeLocal hf with ⟨hnil, -⟩ | ⟨hnone, -⟩ | ⟨_, w, rest', -, -, hstack', hf⟩
  · rw [hstack] at hnil
    cases hnil
  · rw [hdeclared] at hnone
    cases hnone
  · obtain ⟨rfl, rfl⟩ := List.cons.inj (hstack.symm.trans hstack')
    exact fails_repin (ha.pinned hdeclared hpinned (ha.getElem?_locals hdeclared)) hf

/-- A store to a local variable that faults changes nothing, or it slips and has let go of an array. -/
theorem slips_of_fails (ha : a.Anchored s.heap) {slot : UInt16} {f : Fault}
    (hf : Fails (a.execute (.storeLocal slot)) s f t) :
    t = s ∨ a.slips s slot = true ∧ Yields (unpinOld (a.locals.getD slot.toNat .null)) s () t := by
  rcases fails_storeLocal hf with ⟨-, heq⟩ | ⟨-, heq⟩ | ⟨declared, v, rest, hd, hp, hstack, -⟩
  · exact .inl heq
  · exact .inl heq
  · obtain ⟨hunpin, new, hnew, hnone, -⟩ := fails_storeLocal_pinned ha hd hp hstack hf
    rcases yields_unpinOld hunpin with ⟨-, heq⟩ | ⟨old, heap, hold, -, -⟩
    · exact .inl heq
    · refine .inr ⟨?_, hunpin⟩
      simp only [slips, hd, hold, hstack, hp, hnew, Bool.true_and, Option.any_some, hnone,
        Option.isNone_none]

end Activation

/-! ## The end of a call -/

/-- Between the two stores pins were undone at ends of calls, one for each that was held, and nothing
else changed. -/
structure Store.Releases (held : (Nat → Bool) → Nat) (s t : Store) : Prop where
  /-- The pins of an array. -/
  pins : ∀ id, t.heap.pins? id = (s.heap.pins? id).map (· - held (· == id))
  stats : t.stats = { s.stats with
    frameExitUnpins := s.stats.frameExitUnpins + held fun _ => true }
  events : t.events = s.events ++ Array.replicate (held fun _ => true) .frameExitUnpinned

namespace Store

variable {s t u : Store} {H H' : (Nat → Bool) → Nat}

theorem Releases.refl (s : Store) : s.Releases (fun _ => 0) s := ⟨by simp, rfl, by simp⟩

theorem Releases.trans (h : s.Releases H t) (h' : t.Releases H' u) :
    s.Releases (fun kind => H kind + H' kind) u := by
  refine ⟨fun id => ?_, ?_, ?_⟩
  · rw [h'.pins, h.pins, Option.map_map]
    congr 1
    funext n
    exact Nat.sub_sub _ _ _
  · rw [h'.stats, h.stats]
    simp only [Nat.add_assoc]
  · rw [h'.events, h.events, Array.append_assoc, Array.replicate_append_replicate]

/-- One variable is let go of. -/
theorem releases_slot (s : Store) {slot : LocalVariable × Value}
    (hknown : slot.1.pinned = true → s.heap.Knows slot.2) :
    s.Releases (fun kind => if LocalVariable.holds kind slot = true then 1 else 0)
      (Activation.releaseSlot s slot) := by
  obtain ⟨declared, v⟩ := slot
  unfold Activation.releaseSlot LocalVariable.holds
  dsimp only at hknown ⊢
  cases hpinned : declared.pinned with
  | false => simpa using Releases.refl s
  | true =>
    cases hid : pinTarget? v with
    | none => simpa using Releases.refl s
    | some id =>
      obtain ⟨heap, hheap⟩ := Heap.exists_changePins (hknown hpinned id hid) (· - 1)
      have hunpin : s.heap.unpin id = .ok heap := hheap
      dsimp only
      rw [hunpin]
      refine ⟨fun k => ?_, by simp [Store.count, Store.log], by simp [Store.count, Store.log]⟩
      show heap.pins? k = _
      rw [Heap.pins?_changePins hheap]
      by_cases hk : k = id
      · simp [hk]
      · simp [hk, Ne.symm hk]

/-- Variables are let go of, one after the other. -/
theorem releases_slots : ∀ {slots : List (LocalVariable × Value)} {s : Store},
    (∀ slot ∈ slots, slot.1.pinned = true → s.heap.Knows slot.2) →
    s.Releases (fun kind => slots.countP (LocalVariable.holds kind))
      (slots.foldl Activation.releaseSlot s)
  | [], s, _ => .refl s
  | slot :: slots, s, hknown => by
    obtain ⟨hslot, hslots⟩ := List.forall_mem_cons.1 hknown
    have hfirst := releases_slot s hslot
    have hknown' : ∀ x ∈ slots, x.1.pinned = true →
        (Activation.releaseSlot s slot).heap.Knows x.2 :=
      fun x hx hp => (hslots x hx hp).of_map hfirst.pins
    have hall := hfirst.trans (releases_slots hknown')
    simp only [List.foldl_cons, List.countP_cons, Nat.add_comm (slots.countP _)]
    exact hall

end Store

/-- The end of a call undoes each pin that the call holds. -/
theorem Activation.releases {a : Activation} {s : Store} (ha : a.Anchored s.heap) :
    s.Releases a.held (a.close s) := by
  have hreleases : s.closed.Releases a.held (a.close s) := by
    rw [Activation.close_eq]
    refine Store.releases_slots fun slot hslot hpinned => ?_
    obtain ⟨i, hi⟩ := List.mem_iff_getElem?.1 hslot
    obtain ⟨hdeclared, hv⟩ := List.getElem?_zip_eq_some.1 hi
    rw [Array.getElem?_toList] at hdeclared hv
    exact ha.pinned hdeclared hpinned hv
  exact ⟨hreleases.pins, hreleases.stats, hreleases.events⟩

/-! ## Steps -/

namespace Tallied

variable {R : Nat → Nat → Prop} {frames frames' callers : List Activation} {a b : Activation}
  {s t : Store}

/-- An array on which a pin is held exists. -/
theorem isSome_pins (h : Tallied R frames s) {id : Nat} (hpos : 0 < heldBy frames (· == id)) :
    (s.heap.pins? id).isSome = true := by
  obtain ⟨a, ha, hpos⟩ := Activation.exists_of_heldBy_pos hpos
  obtain ⟨slot, declared, v, k, hd, hp, hv, hk, heq⟩ := Activation.exists_of_held_pos hpos
  obtain rfl : k = id := by simpa using heq
  exact (h.calls a ha).pinned hd hp hv k hk

/-- What leaves pins alone keeps the tally. -/
theorem keep (hR : Balances R) (h : Tallied R frames s) (hk : s.KeepsPins t) :
    Tallied R frames t := by
  refine ⟨fun a ha => (h.calls a ha).mono fun v hv => hk.knows hv, fun id n hn => ?_⟩
  rcases hk.fresh id n hn with hn | ⟨hnone, rfl⟩
  · exact h.pins id n hn
  · rcases Nat.eq_zero_or_pos (heldBy frames (· == id)) with hzero | hpos
    · rw [hzero]
      exact hR.zero
    · have hsome := h.isSome_pins hpos
      rw [hnone] at hsome
      cases hsome

/-- A call that goes on with the same variables keeps the tally. -/
theorem replace (h : Tallied R (a :: frames) s) (hmethod : b.method = a.method)
    (hlocals : b.locals = a.locals) : Tallied R (b :: frames) s := by
  obtain ⟨ha, hframes⟩ := List.forall_mem_cons.1 h.calls
  refine ⟨List.forall_mem_cons.2 ⟨ha.replace hmethod hlocals, hframes⟩, fun id n hn => ?_⟩
  have hpins := h.pins id n hn
  simp only [Activation.heldBy_cons, Activation.held, hmethod, hlocals] at hpins ⊢
  exact hpins

/-- A call that begins holds nothing. -/
theorem enter (h : Tallied R frames s) (ha : a.Anchored s.heap)
    (hnowhere : ∀ v ∈ a.locals, pinTarget? v = none) : Tallied R (a :: frames) s := by
  refine ⟨List.forall_mem_cons.2 ⟨ha, h.calls⟩, fun id n hn => ?_⟩
  rw [Activation.heldBy_cons, Activation.held_eq_zero hnowhere, Nat.zero_add]
  exact h.pins id n hn

/-- Pins that were held are let go of and others are taken. -/
theorem move (hR : Balances R) (h : Tallied R frames s) (gone new : Nat → Nat)
    (hcalls : ∀ a ∈ frames', a.Anchored t.heap)
    (hpins : ∀ id, t.heap.pins? id = (s.heap.pins? id).map fun n => n - gone id + new id)
    (hgone : ∀ id, gone id ≤ heldBy frames (· == id))
    (hheld : ∀ id, heldBy frames' (· == id) + gone id = heldBy frames (· == id) + new id) :
    Tallied R frames' t := by
  refine ⟨hcalls, fun id n hn => ?_⟩
  rw [hpins] at hn
  obtain ⟨m, hm, rfl⟩ := Option.map_eq_some_iff.1 hn
  have hmoved := hR.moved (gone id) (new id) (hgone id) (h.pins id m hm)
  have heq : heldBy frames' (· == id) = heldBy frames (· == id) - gone id + new id := by
    have := hgone id
    have := hheld id
    omega
  rw [heq]
  exact hmoved

/-- A store to a variable keeps the tally. -/
theorem setLocal (hR : Balances R) (h : Tallied R (a :: frames) s) {slot : Nat}
    {declared : LocalVariable} {v : Value} (hdeclared : a.method.locals[slot]? = some declared)
    (hrepin : Yields (repin declared.pinned (a.locals.getD slot .null) v) s () t) :
    Tallied R ({ a with locals := a.locals.setIfInBounds slot (v.narrow declared.type) } :: frames)
      t := by
  obtain ⟨ha, hframes⟩ := List.forall_mem_cons.1 h.calls
  have hold := ha.getElem?_locals hdeclared
  generalize a.locals.getD slot .null = old at hrepin hold
  cases hpinned : declared.pinned with
  | false =>
    rw [hpinned] at hrepin
    obtain ⟨-, rfl⟩ := Yields.pure_iff.1 hrepin
    refine ⟨List.forall_mem_cons.2 ⟨ha.setLocal hdeclared (by simp [hpinned]), hframes⟩,
      fun id n hn => ?_⟩
    rw [Activation.heldBy_cons, Activation.held_setUnpinned _ hdeclared hpinned hold,
      ← Activation.heldBy_cons]
    exact h.pins id n hn
  | true =>
    rw [hpinned] at hrepin
    obtain ⟨_, u, hunpin, hpin⟩ := Yields.bind_iff.1 hrepin
    have hpins : ∀ id, t.heap.pins? id =
        (s.heap.pins? id).map fun n => n - old.weight (· == id) + v.weight (· == id) := by
      intro id
      rw [Activation.pins?_pinNew hpin, Activation.pins?_unpinOld hunpin, Option.map_map]
      rfl
    have hknows : ∀ w, s.heap.Knows w → t.heap.Knows w := fun w hw => hw.of_map hpins
    have hnew : t.heap.Knows (v.narrow declared.type) :=
      Heap.knows_of_eq (Activation.knows_pinNew hpin) (Value.pinTarget?_narrow _ _)
    have hwith : ∀ id, ({ a with
          locals := a.locals.setIfInBounds slot (v.narrow declared.type) } : Activation).held
            (· == id) + old.weight (· == id) = a.held (· == id) + v.weight (· == id) := by
      intro id
      rw [Activation.held_setLocal _ _ hdeclared hpinned hold, Value.weight_eq, Value.weight_eq,
        Value.pinTarget?_narrow]
    refine h.move hR (fun id => old.weight (· == id)) (fun id => v.weight (· == id))
      (List.forall_mem_cons.2 ⟨(ha.mono hknows).setLocal hdeclared fun _ => hnew,
        fun b hb => (hframes b hb).mono hknows⟩) hpins (fun id => ?_) fun id => ?_
    · -- The pin that is let go of is one that the variable held.
      have hwithout := Activation.held_setLocal (· == id) .null hdeclared hpinned hold
      have hnull : Value.null.weight (· == id) = 0 := rfl
      rw [Activation.heldBy_cons]
      omega
    · have := hwith id
      simp only [Activation.heldBy_cons]
      omega

/-- An instruction inside a call keeps the tally. -/
theorem executes (hR : Balances R) (h : Tallied R (a :: frames) s) {i : Instruction}
    (hexec : a.Executes s i b t) : Tallied R (b :: frames) t := by
  cases hexec with
  | storeLocal _ hd hrepin => exact (h.setLocal hR hd hrepin).replace rfl rfl
  | @callHelper helper result u _ hcall =>
    have hkeeps : s.KeepsPins (u.afterHelper helper) :=
      ((Access.keepsPins_callHelper _ _ _).yields hcall).trans
        (Activation.keepsPins_afterHelper _ _)
    exact (h.keep hR hkeeps).replace rfl rfl
  | newArray _ hw =>
    exact (h.keep hR ((Activation.keepsPins_makeArray _ _ _).yields hw)).replace rfl rfl
  | @store type u v p rest heap _ _ hheap =>
    -- What is stored may be a pointer to nowhere, but no pins change.
    have hpins := Heap.pins?_store hheap
    have hstored : Tallied R (a :: frames) { s with heap := heap } := by
      refine ⟨fun c hc => (h.calls c hc).mono fun w hw id hid => ?_,
        fun id n hn => h.pins id n ((hpins id).symm.trans hn)⟩
      rw [hpins]
      exact hw id hid
    exact hstored.replace rfl rfl
  | _ => exact h.replace rfl rfl

/-- An instruction that faults keeps the tally, unless it is a store that slips: then one pin is undone
that is still held. -/
theorem fails (hR : Balances R) (h : Tallied R (a :: frames) s) {i : Instruction} {f : Fault}
    (hi : i.isControl = false) (hf : Fails (a.execute i) s f t)
    (hslip : ∀ slot, i = .storeLocal slot → a.slips s slot = true → ∀ n m, R n m → R (n - 1) m) :
    Tallied R (a :: frames) t := by
  by_cases hlocal : ∃ slot, i = .storeLocal slot
  · obtain ⟨slot, rfl⟩ := hlocal
    rcases Activation.slips_of_fails (h.calls a List.mem_cons_self) hf with rfl | ⟨hslips, hunpin⟩
    · exact h
    · have hpins := Activation.pins?_unpinOld hunpin
      refine ⟨fun c hc => (h.calls c hc).mono fun v hv => hv.of_map hpins, fun id n hn => ?_⟩
      rw [hpins] at hn
      obtain ⟨m, hm, rfl⟩ := Option.map_eq_some_iff.1 hn
      rw [Value.weight_eq]
      split
      · exact hslip slot rfl hslips _ _ (h.pins id m hm)
      · exact h.pins id m hm
  · exact h.keep hR (Activation.keepsPins_of_fails hi (fun slot heq => hlocal ⟨slot, heq⟩) hf)

/-- The counter of calls has nothing to do with pins. -/
theorem atDepth (h : Tallied R frames s) (n : Nat) : Tallied R frames { s with depth := n } :=
  ⟨h.calls, h.pins⟩

/-- The end of a call keeps the tally. -/
theorem release (hR : Balances R) (h : Tallied R (a :: frames) s) :
    Tallied R frames (a.close s) := by
  obtain ⟨ha, hframes⟩ := List.forall_mem_cons.1 h.calls
  have hreleases := Activation.releases ha
  refine h.move hR (fun id => a.held (· == id)) (fun _ => 0)
    (fun b hb => (hframes b hb).mono fun v hv => hv.of_map hreleases.pins) hreleases.pins ?_ ?_
  · exact fun id => Activation.held_le_heldBy List.mem_cons_self
  · intro id
    rw [Activation.heldBy_cons]
    omega

end Tallied

namespace Run

variable {R : Nat → Nat → Prop} {callers : List Activation} {a : Activation} {s : Store}
  {steps : Nat} {program : Module} {limits : Limits} {r : Run}

/-- A crash keeps the tally, however many calls it ends. -/
theorem tallied_raise (hR : Balances R) {c : Crash} : ∀ {callers : List Activation}
    {a : Activation} {s : Store}, Tallied R (a :: callers) s →
    (raise s steps c a callers).Tallied R := by
  intro callers
  induction callers with
  | nil =>
    intro a s h
    cases hcover : a.covering with
    | cons region rest =>
      rw [raise_of_covering_cons hcover]
      exact h.replace rfl rfl
    | nil =>
      rw [raise_of_covering_nil hcover]
      exact h.release hR
  | cons caller callers ih =>
    intro a s h
    cases hcover : a.covering with
    | cons region rest =>
      rw [raise_of_covering_cons hcover]
      exact h.replace rfl rfl
    | nil =>
      rw [raise_of_covering_nil hcover]
      exact ih (h.release hR)

/-- A call that has ended leaves the tally to its callers. -/
theorem tallied_resume (hR : Balances R) {result : CallResult} (h : Tallied R callers s) :
    (resume callers result s steps).Tallied R := by
  cases callers with
  | nil => exact h
  | cons caller callers =>
    match result with
    | .error c => exact tallied_raise hR h
    | .ok none | .ok (some v) => exact h.replace rfl rfl

/-- A call that begins keeps the tally, whatever its arguments are. -/
theorem tallied_enter {m : Method} {arguments : List Value} {depth maxDepth : Nat}
    (h : Tallied R callers s) (henter : Activation.enter m arguments depth maxDepth = .ok a) :
    Tallied R (a :: callers) s := by
  obtain ⟨-, -, regions, -, rfl⟩ := Activation.enter_eq_ok.1 henter
  have hnowhere : ∀ v ∈ m.locals.map fun v => Value.zeroOf v.type, pinTarget? v = none := by
    intro v hv
    obtain ⟨declared, -, rfl⟩ := Array.mem_map.1 hv
    exact Value.pinTarget?_zeroOf _
  exact h.enter (.of_nowhere (by simp) hnowhere) hnowhere

/-- A step keeps the tally, unless it is a store that slips. -/
theorem tallied_stepsTo (hR : Balances R) {p : Progress} (h : Tallied R r.frames r.store)
    (hslip : r.slips = true → ∀ n m, R n m → R (n - 1) m) (hstep : StepsTo program limits r p) :
    p.Tallied R := by
  cases hstep with
  | limit | fellOff | callMissing | callShort | callRefused | retEmpty | leaveUnbound =>
    exact tallied_raise hR h
  | executed _ _ _ hexec => exact Tallied.executes hR h hexec
  | faulted _ hi hcontrol hfails =>
    refine tallied_raise hR (Tallied.fails hR h hcontrol hfails ?_)
    rintro slot rfl hslips
    refine hslip ?_
    rw [slips, hi]
    exact hslips
  | callEntered _ _ _ _ henter =>
    have hwaiting : Tallied R (r.current :: r.callers) r.store.opened := h.atDepth _
    exact tallied_enter (hwaiting.replace rfl rfl) henter
  | returned | handlerReturned | stray | crashDone =>
    exact tallied_resume hR (Tallied.release hR h)
  | jumped | left | nextHandler | jumpDone => exact Tallied.replace h rfl rfl

end Run

end ManagedC
