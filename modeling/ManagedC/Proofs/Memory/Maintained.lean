import ManagedC.Proofs.Cleanup.NativeStrings
import ManagedC.Proofs.Run.Faults

/-!
# What computations on the store leave behind

A computation maintains a property of the store if the property is there after it, with an answer or a
fault (`Access.Maintains`). It is clean if nothing at all has happened where it faults (`Access.Clean`).
Both are put together along the structure of a computation. Of the services of the machine, `argsToArgv`
and `arrayCopy` are clean (`Access.clean_call_argsToArgv`, `Access.clean_call_arrayCopy`).
-/

namespace ManagedC

/-- Wherever the computation begins with a property of the store, it ends with it, with an answer or a
fault. -/
def Access.Maintains {α : Type} (I : Store → Prop) (x : Access α) : Prop := ∀ s, I s → I (x s).2

/-! ## Computations that maintain something -/

namespace Access.Maintains

variable {α β : Type} {I : Store → Prop}

theorem pure (a : α) : Maintains I (Pure.pure a : Access α) := fun _ h => h

theorem throw (f : Fault) : Maintains I (MonadExcept.throw f : Access α) := fun _ h => h

theorem throw_bind (f : Fault) (g : α → Access β) :
    Maintains I ((MonadExcept.throw f : Access α) >>= g) := fun _ h => h

theorem ofExcept (x : Except Fault α) : Maintains I (Access.ofExcept x) := fun _ h => h

theorem get : Maintains I (MonadState.get : Access Store) := fun _ h => h

theorem bind {x : Access α} {g : α → Access β} (hx : Maintains I x) (hg : ∀ a, Maintains I (g a)) :
    Maintains I (x >>= g) := by
  intro s hs
  have ht := hx s hs
  rw [bind_apply]
  rcases hr : x s with ⟨f | a, t⟩
  · rw [hr] at ht
    exact ht
  · rw [hr] at ht
    exact hg a t ht

theorem read (f : Heap → Except Fault α) : Maintains I (Access.read f) :=
  get.bind fun _ => ofExcept _

theorem update {f : Heap → Except Fault Heap}
    (hf : ∀ s heap, I s → f s.heap = .ok heap → I { s with heap := heap }) :
    Maintains I (Access.update f) := by
  intro s hs
  rcases hr : Access.update f s with ⟨fault | u, t⟩
  · obtain ⟨-, rfl⟩ := fails_update.1 hr
    exact hs
  · obtain ⟨heap, hheap, rfl⟩ := yields_update.1 hr
    exact hf s heap hs hheap

theorem mapM {f : α → Access β} (hf : ∀ a, Maintains I (f a)) (xs : List α) :
    Maintains I (xs.mapM f) := by
  induction xs with
  | nil => exact pure _
  | cons x xs ih =>
    rw [List.mapM_cons]
    exact (hf x).bind fun _ => ih.bind fun _ => pure _

theorem forM {f : α → Access Unit} (hf : ∀ a, Maintains I (f a)) (xs : List α) :
    Maintains I (xs.forM f) := by
  induction xs with
  | nil => exact pure _
  | cons x xs ih => exact (hf x).bind fun _ => ih

end Access.Maintains

/-! ## Computations that fault without a trace -/

namespace Access

/-- If the computation faults, the store is as it was. -/
def Clean {α : Type} (x : Access α) : Prop := ∀ s f t, Fails x s f t → t = s

namespace Clean

variable {α β : Type}

theorem throw (f : Fault) : Clean (MonadExcept.throw f : Access α) := by
  intro s f' t h
  exact (Fails.throw_iff.1 h).2

theorem update (g : Heap → Except Fault Heap) : Clean (Access.update g) := by
  intro s f t h
  exact (fails_update.1 h).2

/-- A computation that has an answer wherever it begins does not fault. -/
theorem of_yields {x : Access α} (h : ∀ s, ∃ a t, Yields x s a t) : Clean x := by
  intro s f t hf
  obtain ⟨a, u, hy⟩ := h s
  unfold Fails at hf
  rw [hy] at hf
  cases hf

/-- What comes before a clean computation may fault without a trace if it only reads. -/
theorem bind {x : Access α} {g : α → Access β} (hx : ∀ s, Maintains (· = s) x) (hg : ∀ a, Clean (g a)) :
    Clean (x >>= g) := by
  intro s f t h
  have hs := hx s s rfl
  rcases Fails.bind_iff.1 h with hf | ⟨a, u, hy, hf⟩
  · rw [hf] at hs
    exact hs
  · rw [hy] at hs
    obtain rfl : u = s := hs
    exact hg a u f t hf

theorem ofExcept_bind {r : Except Fault α} {g : α → Access β} (hg : ∀ a, Clean (g a)) :
    Clean (Access.ofExcept r >>= g) := bind (fun _ => .ofExcept r) hg

theorem read_bind {r : Heap → Except Fault α} {g : α → Access β} (hg : ∀ a, Clean (g a)) :
    Clean (Access.read r >>= g) := bind (fun _ => .read r) hg

theorem throw_bind (f : Fault) (g : α → Access β) :
    Clean ((MonadExcept.throw f : Access α) >>= g) := by
  intro s f' t h
  rcases Fails.bind_iff.1 h with hf | ⟨a, u, hy, -⟩
  · exact throw f s f' t hf
  · exact absurd hy Yields.not_throw

theorem bind_pure {x : Access α} (g : α → β) (hx : Clean x) : Clean (x >>= fun a => pure (g a)) := by
  intro s f t h
  rcases Fails.bind_iff.1 h with hf | ⟨a, u, -, hf⟩
  · exact hx s f t hf
  · exact absurd hf Fails.not_pure

end Clean

open Yields

variable {s t : Store} {v : Value}

/-! ## Services that fault without a trace -/

/-- Texts are read without a change of the store. -/
theorem maintains_texts (values : List Value) (s : Store) : Maintains (· = s) (texts values) :=
  Maintains.mapM (fun _ => (Maintains.ofExcept _).bind fun _ => .read _) values

theorem clean_argsToArgv (v : Value) : Clean (argsToArgv v) := by
  unfold argsToArgv
  refine Clean.ofExcept_bind fun id => Clean.read_bind fun array => ?_
  obtain ⟨element, items⟩ := array
  dsimp only
  split_ifs
  · exact Clean.throw_bind _ _
  · refine Clean.bind (maintains_texts items.toList) fun ts => ?_
    exact Clean.of_yields fun s => ⟨_, _, yields_copying ts s⟩

theorem clean_arrayCopy (v w : Value) (length : Int64) : Clean (arrayCopy v w length) := by
  unfold arrayCopy
  refine Clean.ofExcept_bind fun source => Clean.ofExcept_bind fun destination => ?_
  split_ifs
  · exact Clean.throw_bind _ _
  refine Clean.read_bind fun read => ?_
  obtain ⟨element, items⟩ := read
  dsimp only
  split_ifs
  · exact Clean.throw_bind _ _
  refine Clean.read_bind fun read => ?_
  obtain ⟨element', targets⟩ := read
  dsimp only
  split_ifs
  · exact Clean.throw_bind _ _
  · exact Clean.throw_bind _ _
  · exact Clean.throw_bind _ _
  · exact Clean.update _

/-! ## Calls -/

variable {arguments : List Value} {r : Option Value}

theorem yields_call_argsToArgv : Yields (callHelper .argsToArgv arguments) s r t ↔
    ∃ v a, arguments = [v] ∧ r = some a ∧ Yields (argsToArgv v) s a t := by
  rcases arguments with _ | ⟨v, _ | ⟨w, rest⟩⟩
  · exact iff_of_false not_throw (by simp)
  · show Yields (some <$> argsToArgv v) s r t ↔ _
    rw [map_iff]
    constructor
    · rintro ⟨a, ha, rfl⟩
      exact ⟨v, a, rfl, rfl, ha⟩
    · rintro ⟨_, a, h, rfl, ha⟩
      cases h
      exact ⟨a, ha, rfl⟩
  · exact iff_of_false not_throw (by simp)

theorem yields_call_freeArgv : Yields (callHelper .freeArgv arguments) s r t ↔
    ∃ v, arguments = [v] ∧ r = none ∧ Yields (freeArgv v) s () t := by
  rcases arguments with _ | ⟨v, _ | ⟨w, rest⟩⟩
  · exact iff_of_false not_throw (by simp)
  · show Yields (freeArgv v >>= fun _ => pure none) s r t ↔ _
    rw [bind_iff]
    constructor
    · rintro ⟨_, u, hv, hr⟩
      obtain ⟨rfl, rfl⟩ := pure_iff.1 hr
      exact ⟨v, rfl, rfl, hv⟩
    · rintro ⟨_, h, rfl, hv⟩
      cases h
      exact ⟨(), t, hv, pure_iff.2 ⟨rfl, rfl⟩⟩
  · exact iff_of_false not_throw (by simp)

theorem fails_call_freeArgv {f : Fault} :
    Fails (callHelper .freeArgv [v]) s f t ↔ Fails (freeArgv v) s f t := by
  show Fails (freeArgv v >>= fun _ => pure none) s f t ↔ _
  rw [Fails.bind_iff]
  constructor
  · rintro (h | ⟨_, u, -, h⟩)
    · exact h
    · exact absurd h Fails.not_pure
  · exact .inl

theorem yields_call_arrayCopy : Yields (callHelper .arrayCopy arguments) s r t ↔
    ∃ v w n, arguments = [v, w, .int n] ∧ r = none ∧ Yields (arrayCopy v w n) s () t := by
  rcases arguments with _ | ⟨v, _ | ⟨w, _ | ⟨x, _ | ⟨y, rest⟩⟩⟩⟩
  · exact iff_of_false not_throw (by simp)
  · exact iff_of_false not_throw (by simp)
  · exact iff_of_false not_throw (by simp)
  · show Yields (ofExcept x.asInt >>= fun n => arrayCopy v w n >>= fun _ => pure none) s r t ↔ _
    constructor
    · intro h
      obtain ⟨n, u, hn, hrest⟩ := bind_iff.1 h
      obtain ⟨_, u', hcopy, hr⟩ := bind_iff.1 hrest
      obtain ⟨hn, rfl⟩ := yields_ofExcept.1 hn
      obtain ⟨rfl, rfl⟩ := pure_iff.1 hr
      refine ⟨v, w, n, ?_, rfl, hcopy⟩
      cases x <;> cases hn
      rfl
    · rintro ⟨_, _, n, h, rfl, hcopy⟩
      cases h
      exact bind_iff.2 ⟨n, s, yields_ofExcept.2 ⟨rfl, rfl⟩,
        bind_iff.2 ⟨(), t, hcopy, pure_iff.2 ⟨rfl, rfl⟩⟩⟩
  · exact iff_of_false not_throw (by simp)

theorem clean_call_argsToArgv (arguments : List Value) : Clean (callHelper .argsToArgv arguments) := by
  rcases arguments with _ | ⟨v, _ | ⟨w, rest⟩⟩
  · exact Clean.throw _
  · show Clean (some <$> argsToArgv v)
    rw [map_eq_pure_bind]
    exact (clean_argsToArgv v).bind_pure some
  · exact Clean.throw _

theorem clean_call_arrayCopy (arguments : List Value) : Clean (callHelper .arrayCopy arguments) := by
  rcases arguments with _ | ⟨v, _ | ⟨w, _ | ⟨x, _ | ⟨y, rest⟩⟩⟩⟩
  · exact Clean.throw _
  · exact Clean.throw _
  · exact Clean.throw _
  · exact Clean.ofExcept_bind fun n => (clean_arrayCopy v w n).bind_pure fun _ => none
  · exact Clean.throw _

end Access

end ManagedC
