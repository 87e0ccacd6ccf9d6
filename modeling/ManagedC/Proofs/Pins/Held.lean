import ManagedC.Proofs.Pins.Quiet
import ManagedC.Proofs.Run.Step

/-!
# The pins that calls hold

`Activation.held` counts the pinned variables of a call that point into arrays, and `Disciplined` says
that the calls in progress account for every pin there is. Main statements: a store over a pinned
variable changes what is held by the two values (`Activation.held_setLocal`), and the pins in the store
follow (`Store.Accounts.unpinOld`, `Store.Accounts.pinNew`).
-/

namespace ManagedC

open Activation (pinTarget? unpinOld pinNew repin)

/-- How many pins on arrays of some kind a pinned variable with the value holds. -/
def Value.weight (kind : Nat → Bool) (v : Value) : Nat :=
  if (pinTarget? v).any kind = true then 1 else 0

/-- Whether a variable with a value holds a pin on an array of some kind. -/
def LocalVariable.holds (kind : Nat → Bool) (slot : LocalVariable × Value) : Bool :=
  slot.1.pinned && (pinTarget? slot.2).any kind

namespace Activation

/-- How many pinned variables of the call point into arrays of some kind. -/
def held (kind : Nat → Bool) (a : Activation) : Nat :=
  (a.method.locals.toList.zip a.locals.toList).countP (LocalVariable.holds kind)

/-- How many pinned variables of some calls point into arrays of some kind. -/
def heldBy (frames : List Activation) (kind : Nat → Bool) : Nat := (frames.map (held kind)).sum

@[simp] theorem heldBy_nil (kind : Nat → Bool) : heldBy [] kind = 0 := rfl

@[simp] theorem heldBy_cons (kind : Nat → Bool) (a : Activation) (frames : List Activation) :
    heldBy (a :: frames) kind = a.held kind + heldBy frames kind := by
  simp [heldBy]

/-- What is known of a call while discipline is kept. -/
structure Orderly (h : Heap) (a : Activation) : Prop where
  /-- Every variable has a value. -/
  size : a.locals.size = a.method.locals.size
  /-- The local variables point into arrays that exist. -/
  locals : ∀ v ∈ a.locals, h.Knows v
  arguments : ∀ v ∈ a.arguments, h.Knows v
  /-- The values on the stack do. -/
  stack : ∀ v ∈ a.stack, h.Knows v

end Activation

/-- The pins in a store are those that are held: an array is pinned as often as pins on it are held,
and the counts of pins made and undone differ by all that are held. -/
structure Store.Accounts (holding : (Nat → Bool) → Nat) (s : Store) : Prop where
  /-- The pins of an array. -/
  pins : ∀ id n, s.heap.pins? id = some n → n = holding (· == id)
  counts : s.stats.pins =
    s.stats.unpins + s.stats.frameExitUnpins + holding fun _ => true

/-- The pins in a store are those that the calls in progress hold, and nothing points into an array
that does not exist. -/
structure Disciplined (frames : List Activation) (s : Store) : Prop where
  calls : ∀ a ∈ frames, a.Orderly s.heap
  closed : s.heap.Closed
  accounts : s.Accounts (Activation.heldBy frames)

/-! ## Holding -/

/-- How a count over two lists side by side changes with an element of the second one. -/
theorem countP_zip_set {α β : Type} {p : α × β → Bool} {x : α} {y : β} (z : β) :
    ∀ {xs : List α} {ys : List β} {i : Nat}, xs[i]? = some x → ys[i]? = some y →
      (xs.zip (ys.set i z)).countP p + (if p (x, y) = true then 1 else 0) =
        (xs.zip ys).countP p + if p (x, z) = true then 1 else 0
  | [], _, _, hx, _ => by simp at hx
  | _ :: _, [], _, _, hy => by simp at hy
  | x' :: xs, y' :: ys, 0, hx, hy => by
    cases hx
    cases hy
    simp only [List.set_cons_zero, List.zip_cons_cons, List.countP_cons]
    omega
  | x' :: xs, y' :: ys, i + 1, hx, hy => by
    have hx : xs[i]? = some x := by simpa using hx
    have hy : ys[i]? = some y := by simpa using hy
    have ih := countP_zip_set (p := p) z hx hy
    simp only [List.set_cons_succ, List.zip_cons_cons, List.countP_cons]
    omega

namespace Activation

variable {kind : Nat → Bool} {a : Activation} {frames : List Activation}

/-- What a call holds, a local variable holds. -/
theorem exists_of_held_pos (h : 0 < a.held kind) :
    ∃ (slot : Nat) (declared : LocalVariable) (v : Value) (id : Nat),
      a.method.locals[slot]? = some declared ∧ declared.pinned = true ∧
        a.locals[slot]? = some v ∧ pinTarget? v = some id ∧ kind id = true := by
  obtain ⟨⟨declared, v⟩, hmem, hholds⟩ := List.countP_pos_iff.1 h
  obtain ⟨slot, hslot⟩ := List.mem_iff_getElem?.1 hmem
  obtain ⟨hdeclared, hv⟩ := List.getElem?_zip_eq_some.1 hslot
  unfold LocalVariable.holds at hholds
  obtain ⟨hpinned, htarget⟩ := Bool.and_eq_true_iff.1 hholds
  obtain ⟨id, hid, hkind⟩ := (Option.any_eq_true _ _).1 htarget
  exact ⟨slot, declared, v, id, by rwa [← Array.getElem?_toList], hpinned,
    by rwa [← Array.getElem?_toList], hid, hkind⟩

/-- A pinned local variable that points into an array holds a pin. -/
theorem held_pos {slot : Nat} {declared : LocalVariable} {v : Value} {id : Nat}
    (hdeclared : a.method.locals[slot]? = some declared) (hpinned : declared.pinned = true)
    (hv : a.locals[slot]? = some v) (hid : pinTarget? v = some id) (hkind : kind id = true) :
    0 < a.held kind := by
  refine List.countP_pos_iff.2 ⟨(declared, v), ?_, ?_⟩
  · refine List.mem_iff_getElem?.2 ⟨slot, List.getElem?_zip_eq_some.2 ⟨?_, ?_⟩⟩
    · rwa [Array.getElem?_toList]
    · rwa [Array.getElem?_toList]
  · unfold LocalVariable.holds
    simp [hpinned, hid, hkind]

theorem exists_of_heldBy_pos (h : 0 < heldBy frames kind) : ∃ a ∈ frames, 0 < a.held kind := by
  induction frames with
  | nil => cases h
  | cons a frames ih =>
    rw [heldBy_cons] at h
    by_cases ha : 0 < a.held kind
    · exact ⟨a, List.mem_cons_self, ha⟩
    · obtain ⟨b, hb, hpos⟩ := ih (by omega)
      exact ⟨b, List.mem_cons_of_mem _ hb, hpos⟩

theorem held_le_heldBy (ha : a ∈ frames) : a.held kind ≤ heldBy frames kind := by
  induction frames with
  | nil => cases ha
  | cons b frames ih =>
    rw [heldBy_cons]
    rcases List.mem_cons.1 ha with rfl | ha
    · omega
    · have := ih ha
      omega

/-- A call holds nothing whose variables point nowhere. -/
theorem held_eq_zero (h : ∀ v ∈ a.locals, pinTarget? v = none) : a.held kind = 0 := by
  refine List.countP_eq_zero.2 fun ⟨declared, v⟩ hmem hholds => ?_
  have hv := h v (Array.mem_toList_iff.1 (List.of_mem_zip hmem).2)
  unfold LocalVariable.holds at hholds
  rw [hv] at hholds
  simp at hholds

/-- What a call holds after a store to a pinned variable. -/
theorem held_setLocal (kind : Nat → Bool) {slot : Nat} {declared : LocalVariable} {old : Value}
    (new : Value)
    (hdeclared : a.method.locals[slot]? = some declared) (hpinned : declared.pinned = true)
    (hold : a.locals[slot]? = some old) :
    ({ a with locals := a.locals.setIfInBounds slot new } : Activation).held kind +
      old.weight kind = a.held kind + new.weight kind := by
  have hcount := countP_zip_set (p := LocalVariable.holds kind) new
    (Array.getElem?_toList.trans hdeclared) (Array.getElem?_toList.trans hold)
  unfold LocalVariable.holds at hcount
  simp only [hpinned, Bool.true_and] at hcount
  unfold held Value.weight LocalVariable.holds
  rw [Array.toList_setIfInBounds]
  exact hcount

/-- A store to a variable that is not pinned changes nothing that is held. -/
theorem held_setUnpinned {slot : Nat} {declared : LocalVariable} {old : Value} (new : Value)
    (hdeclared : a.method.locals[slot]? = some declared) (hpinned : declared.pinned = false)
    (hold : a.locals[slot]? = some old) :
    ({ a with locals := a.locals.setIfInBounds slot new } : Activation).held kind = a.held kind := by
  have hcount := countP_zip_set (p := LocalVariable.holds kind) new
    (Array.getElem?_toList.trans hdeclared) (Array.getElem?_toList.trans hold)
  unfold LocalVariable.holds at hcount
  simp only [hpinned, Bool.false_and, Bool.false_eq_true, if_false, Nat.add_zero] at hcount
  unfold held LocalVariable.holds
  rw [Array.toList_setIfInBounds]
  exact hcount

end Activation

/-! ## Pins that come and go -/

namespace Heap

variable {h h' : Heap} {id : Nat} {change : Nat → Nat}

/-- Changing the pins of an array changes no other pins. -/
theorem pins?_changePins (hc : h.changePins id change = .ok h') :
    ∀ k, h'.pins? k = if k = id then (h.pins? k).map change else h.pins? k := by
  obtain ⟨element, elements, pins, ho, rfl⟩ := changePins_eq_ok.1 hc
  have hlt := (Array.getElem?_eq_some_iff.1 ho).1
  intro k
  rw [pins?_setIfInBounds hlt]
  split
  · rename_i hk
    rw [hk, pins?_eq_some.2 ⟨element, elements, ho⟩, Option.map_some]
  · rfl

theorem knows_changePins {v : Value} (hc : h.changePins id change = .ok h') (hv : h.Knows v) :
    h'.Knows v := by
  intro k hk
  have hsome := hv k hk
  rw [pins?_changePins hc]
  split
  · rwa [Option.isSome_map]
  · exact hsome

theorem closed_changePins (hc : h.changePins id change = .ok h') (hclosed : h.Closed) :
    h'.Closed := by
  have hc' := hc
  obtain ⟨element, elements, pins, ho, rfl⟩ := changePins_eq_ok.1 hc
  have hlt := (Array.getElem?_eq_some_iff.1 ho).1
  intro k element' elements' pins' hget v hv
  refine knows_changePins hc' ?_
  by_cases hk : id = k
  · subst hk
    dsimp only at hget
    rw [Array.getElem?_setIfInBounds_self_of_lt hlt] at hget
    cases hget
    exact hclosed _ _ _ _ ho v hv
  · dsimp only at hget
    rw [Array.getElem?_setIfInBounds_ne hk] at hget
    exact hclosed _ _ _ _ hget v hv

/-- The pins of an array that exists can be changed. -/
theorem exists_changePins (hid : (h.pins? id).isSome = true) (change : Nat → Nat) :
    ∃ h', h.changePins id change = .ok h' := by
  obtain ⟨n, hn⟩ := Option.isSome_iff_exists.1 hid
  obtain ⟨element, elements, ho⟩ := pins?_eq_some.1 hn
  exact ⟨_, changePins_eq_ok.2 ⟨element, elements, n, ho, rfl⟩⟩

end Heap

namespace Store.Accounts

variable {H : (Nat → Bool) → Nat} {s t : Store} {v : Value}

theorem congr {H' : (Nat → Bool) → Nat} (h : s.Accounts H) (heq : ∀ kind, H kind = H' kind) :
    s.Accounts H' := by
  obtain rfl : H = H' := funext heq
  exact h

/-- One pin less is held when an array is unpinned and it is counted. -/
theorem unpin {id : Nat} (h : s.Accounts fun kind => H kind + v.weight kind)
    (hv : pinTarget? v = some id) (hheap : s.heap.unpin id = .ok t.heap)
    (hpins : t.stats.pins = s.stats.pins)
    (hunpins : t.stats.unpins + t.stats.frameExitUnpins =
      s.stats.unpins + s.stats.frameExitUnpins + 1) : t.Accounts H := by
  refine ⟨fun k n hn => ?_, ?_⟩
  · rw [Heap.pins?_changePins hheap] at hn
    split at hn
    · rename_i hk
      obtain ⟨m, hm, rfl⟩ := Option.map_eq_some_iff.1 hn
      rw [h.pins k m hm]
      simp [Value.weight, hv, hk]
    · rename_i hk
      rw [h.pins k n hn]
      simp [Value.weight, hv, Ne.symm hk]
  · have hcounts := h.counts
    simp only [Value.weight, hv, Option.any_some, if_true] at hcounts
    omega

/-- One more pin is held when an array is pinned and it is counted. -/
theorem pin {id : Nat} (h : s.Accounts H) (hv : pinTarget? v = some id)
    (hheap : s.heap.pin id = .ok t.heap) (hpins : t.stats.pins = s.stats.pins + 1)
    (hunpins : t.stats.unpins = s.stats.unpins)
    (hexits : t.stats.frameExitUnpins = s.stats.frameExitUnpins) :
    t.Accounts fun kind => H kind + v.weight kind := by
  refine ⟨fun k n hn => ?_, ?_⟩
  · rw [Heap.pins?_changePins hheap] at hn
    split at hn
    · rename_i hk
      obtain ⟨m, hm, rfl⟩ := Option.map_eq_some_iff.1 hn
      rw [h.pins k m hm]
      simp [Value.weight, hv, hk]
    · rename_i hk
      rw [h.pins k n hn]
      simp [Value.weight, hv, Ne.symm hk]
  · have hcounts := h.counts
    simp only [Value.weight, hv, Option.any_some, if_true]
    omega

/-- A variable that points nowhere holds nothing. -/
theorem nowhere (hv : pinTarget? v = none) :
    (s.Accounts fun kind => H kind + v.weight kind) ↔ s.Accounts H := by
  have heq : ∀ kind, H kind + v.weight kind = H kind := by
    intro kind
    simp [Value.weight, hv]
  exact ⟨fun h => h.congr heq, fun h => h.congr fun kind => (heq kind).symm⟩

theorem unpinOld (h : s.Accounts fun kind => H kind + v.weight kind)
    (hy : Yields (unpinOld v) s () t) : t.Accounts H := by
  rcases Activation.yields_unpinOld hy with ⟨hnone, rfl⟩ | ⟨id, heap, hid, hheap, rfl⟩
  · exact (nowhere hnone).1 h
  · exact h.unpin hid hheap rfl (Nat.add_right_comm _ 1 _)

theorem pinNew (h : s.Accounts H) (hy : Yields (pinNew v) s () t) :
    t.Accounts fun kind => H kind + v.weight kind := by
  rcases Activation.yields_pinNew hy with ⟨hnone, rfl⟩ | ⟨id, heap, hid, hheap, rfl⟩
  · exact (nowhere hnone).2 h
  · exact h.pin hid hheap rfl rfl rfl

end Store.Accounts

end ManagedC
