import Mathlib

/-!
# Computations with a state that may fail

Every stateful part of the library is a computation with a state and a failure: assembling a method,
emitting code into a scope, building a program, working on the store. `Yields x s a t` says that `x`
started in `s` gives `a` and ends in `t`, and the lemmas here take such a fact apart along the
structure of `x`. A proof about a computation opens it with them and never looks at the monad.
-/

namespace ManagedC

variable {ε σ α β : Type}

/-! ## Results -/

namespace Except

theorem bind_eq_ok {x : Except ε α} {f : α → Except ε β} {b : β} :
    (x >>= f) = .ok b ↔ ∃ a, x = .ok a ∧ f a = .ok b := by
  cases x with
  | error e => simp [bind, Except.bind]
  | ok a => simp [bind, Except.bind]

theorem of_toOption {x : Except ε α} {a : α} (h : x.toOption = some a) : x = .ok a := by
  cases x with
  | error e => cases h
  | ok b =>
    cases h
    rfl

theorem bind_eq_error {x : Except ε α} {f : α → Except ε β} {e : ε} :
    (x >>= f) = .error e ↔ x = .error e ∨ ∃ a, x = .ok a ∧ f a = .error e := by
  cases x with
  | error e => simp [bind, Except.bind]
  | ok a => simp [bind, Except.bind]

theorem map_eq_ok {f : α → β} {x : Except ε α} {b : β} :
    f <$> x = .ok b ↔ ∃ a, x = .ok a ∧ b = f a := by
  cases x with
  | error e => simp [Functor.map, Except.map]
  | ok a => simp [Functor.map, Except.map, eq_comm]

theorem mapError_eq_ok {ε' : Type} {f : ε → ε'} {x : Except ε α} {a : α} :
    x.mapError f = .ok a ↔ x = .ok a := by
  cases x with
  | error e => exact ⟨nofun, nofun⟩
  | ok b =>
    constructor
    · rintro ⟨⟩
      rfl
    · rintro ⟨⟩
      rfl

theorem pure_eq_ok {a b : α} : (pure a : Except ε α) = .ok b ↔ a = b := by
  simp [pure, Except.pure]

theorem mem_of_mapM {f : α → Except ε β} : ∀ {xs : List α} {ys : List β} {y : β},
    xs.mapM f = .ok ys → y ∈ ys → ∃ x ∈ xs, f x = .ok y
  | [], ys, y, h, hy => by
    cases h
    cases hy
  | x :: xs, ys, y, h, hy => by
    rw [List.mapM_cons] at h
    obtain ⟨z, hz, h⟩ := bind_eq_ok.1 h
    obtain ⟨zs, hzs, h⟩ := bind_eq_ok.1 h
    cases h
    rcases List.mem_cons.1 hy with rfl | hy
    · exact ⟨x, List.mem_cons_self, hz⟩
    · obtain ⟨w, hw, hfw⟩ := mem_of_mapM hzs hy
      exact ⟨w, List.mem_cons_of_mem _ hw, hfw⟩

theorem length_mapM {f : α → Except ε β} : ∀ {xs : List α} {ys : List β},
    xs.mapM f = .ok ys → ys.length = xs.length
  | [], ys, h => by
    cases h
    rfl
  | x :: xs, ys, h => by
    rw [List.mapM_cons] at h
    obtain ⟨y, _, h⟩ := bind_eq_ok.1 h
    obtain ⟨zs, hzs, h⟩ := bind_eq_ok.1 h
    cases h
    rw [List.length_cons, List.length_cons, length_mapM hzs]

/-- What becomes of an element of a list stands at its place. -/
theorem getElem?_of_mapM {f : α → Except ε β} : ∀ {xs : List α} {ys : List β} {k : Nat} {x : α},
    xs.mapM f = .ok ys → xs[k]? = some x → ∃ y, f x = .ok y ∧ ys[k]? = some y
  | [], ys, k, x, h, hx => by cases hx
  | z :: xs, ys, k, x, h, hx => by
    rw [List.mapM_cons] at h
    obtain ⟨y, hy, h⟩ := bind_eq_ok.1 h
    obtain ⟨rest, hrest, h⟩ := bind_eq_ok.1 h
    cases h
    cases k with
    | zero =>
      cases hx
      exact ⟨y, hy, rfl⟩
    | succ k =>
      have hx : xs[k]? = some x := hx
      obtain ⟨w, hw, hat⟩ := getElem?_of_mapM hrest hx
      exact ⟨w, hw, hat⟩

end Except

/-- A list of results is as long as the list that they were computed from. -/
theorem Option.length_mapM {f : α → Option β} : ∀ {xs : List α} {ys : List β},
    xs.mapM f = some ys → ys.length = xs.length
  | [], ys, h => by
    cases h
    rfl
  | x :: xs, ys, h => by
    rw [List.mapM_cons] at h
    obtain ⟨y, _, h⟩ := Option.bind_eq_some_iff.1 h
    obtain ⟨zs, hzs, h⟩ := Option.bind_eq_some_iff.1 h
    cases h
    rw [List.length_cons, List.length_cons, length_mapM hzs]

/-! ## Computations with a state -/

/-- The computation `x` started in `s` gives `a` and ends in `t`. -/
def Yields (x : ExceptT ε (StateM σ) α) (s : σ) (a : α) (t : σ) : Prop := x s = (.ok a, t)

/-- The computation `x` started in `s` fails with `e` and ends in `t`. -/
def Fails (x : ExceptT ε (StateM σ) α) (s : σ) (e : ε) (t : σ) : Prop := x s = (.error e, t)

/-- Two computations in sequence, as a case distinction on how the first one ends. -/
theorem bind_apply (x : ExceptT ε (StateM σ) α) (f : α → ExceptT ε (StateM σ) β) (s : σ) :
    (x >>= f) s = match x s with
      | (.ok a, t) => f a t
      | (.error e, t) => (.error e, t) := by
  show (StateT.bind (m := Id) x (ExceptT.bindCont f)) s = _
  unfold StateT.bind
  show (match x s with | (r, t) => ExceptT.bindCont f r t) = _
  rcases x s with ⟨_ | _, _⟩ <;> rfl

theorem get_bind_apply (f : σ → ExceptT ε (StateM σ) β) (s : σ) :
    ((get : ExceptT ε (StateM σ) σ) >>= f) s = f s s := rfl

theorem set_bind_apply (u : σ) (f : PUnit → ExceptT ε (StateM σ) β) (s : σ) :
    ((set u : ExceptT ε (StateM σ) PUnit) >>= f) s = f ⟨⟩ u := rfl

theorem modify_bind_apply (g : σ → σ) (f : PUnit → ExceptT ε (StateM σ) β) (s : σ) :
    ((modify g : ExceptT ε (StateM σ) PUnit) >>= f) s = f ⟨⟩ (g s) := rfl

namespace Yields

theorem bind_iff {x : ExceptT ε (StateM σ) α} {f : α → ExceptT ε (StateM σ) β} {s t : σ} {b : β} :
    Yields (x >>= f) s b t ↔ ∃ a u, Yields x s a u ∧ Yields (f a) u b t := by
  unfold Yields
  rw [bind_apply]
  rcases x s with ⟨e | a, u⟩
  · constructor
    · intro h
      cases h
    · rintro ⟨_, _, h, _⟩
      cases h
  · constructor
    · intro h
      exact ⟨a, u, rfl, h⟩
    · rintro ⟨_, _, h, h'⟩
      cases h
      exact h'

theorem pure_iff {a b : α} {s t : σ} :
    Yields (pure a : ExceptT ε (StateM σ) α) s b t ↔ b = a ∧ t = s :=
  ⟨fun h => by cases h; exact ⟨rfl, rfl⟩, fun ⟨h, h'⟩ => by rw [h, h']; rfl⟩

theorem get_iff {s a t : σ} : Yields (get : ExceptT ε (StateM σ) σ) s a t ↔ a = s ∧ t = s :=
  ⟨fun h => by cases h; exact ⟨rfl, rfl⟩, fun ⟨h, h'⟩ => by rw [h, h']; rfl⟩

theorem set_iff {s u t : σ} {a : PUnit} :
    Yields (set u : ExceptT ε (StateM σ) PUnit) s a t ↔ t = u :=
  ⟨fun h => by cases h; rfl, fun h => by rw [h]; rfl⟩

theorem modify_iff {f : σ → σ} {s t : σ} {a : PUnit} :
    Yields (modify f : ExceptT ε (StateM σ) PUnit) s a t ↔ t = f s :=
  ⟨fun h => by cases h; rfl, fun h => by rw [h]; rfl⟩

theorem not_throw {e : ε} {s t : σ} {a : α} :
    ¬ Yields (throw e : ExceptT ε (StateM σ) α) s a t := fun h => by cases h

theorem map_iff {f : α → β} {x : ExceptT ε (StateM σ) α} {s t : σ} {b : β} :
    Yields (f <$> x) s b t ↔ ∃ a, Yields x s a t ∧ b = f a := by
  rw [map_eq_pure_bind, bind_iff]
  constructor
  · rintro ⟨a, u, hx, hb⟩
    obtain ⟨rfl, rfl⟩ := pure_iff.1 hb
    exact ⟨a, hx, rfl⟩
  · rintro ⟨a, hx, rfl⟩
    exact ⟨a, t, hx, pure_iff.2 ⟨rfl, rfl⟩⟩

/-- A computation that gives an answer gives it in the state it ends in. -/
theorem of_toOption {x : ExceptT ε (StateM σ) α} {s : σ} {a : α}
    (h : (x s).1.toOption = some a) : Yields x s a (x s).2 := by
  unfold Yields
  rcases hx : x s with ⟨e | b, t⟩
  · rw [hx] at h
    cases h
  · rw [hx] at h
    cases h
    rfl

/-- A computation gives one answer at most. -/
theorem unique {x : ExceptT ε (StateM σ) α} {s t u : σ} {a b : α} (h : Yields x s a t)
    (h' : Yields x s b u) : a = b ∧ t = u := by
  unfold Yields at h h'
  rw [h] at h'
  cases h'
  exact ⟨rfl, rfl⟩

end Yields

namespace Fails

theorem bind_iff {x : ExceptT ε (StateM σ) α} {f : α → ExceptT ε (StateM σ) β} {s t : σ} {e : ε} :
    Fails (x >>= f) s e t ↔ Fails x s e t ∨ ∃ a u, Yields x s a u ∧ Fails (f a) u e t := by
  unfold Fails Yields
  rw [bind_apply]
  rcases hx : x s with ⟨e' | a, u⟩
  · constructor
    · intro h
      cases h
      exact .inl rfl
    · rintro (h | ⟨_, _, h, _⟩)
      · cases h
        rfl
      · cases h
  · constructor
    · intro h
      exact .inr ⟨a, u, rfl, h⟩
    · rintro (h | ⟨_, _, h, h'⟩)
      · cases h
      · cases h
        exact h'

theorem not_pure {a : α} {s t : σ} {e : ε} : ¬ Fails (pure a : ExceptT ε (StateM σ) α) s e t :=
  fun h => by cases h

theorem not_get {s t : σ} {e : ε} : ¬ Fails (get : ExceptT ε (StateM σ) σ) s e t :=
  fun h => by cases h

theorem not_modify {f : σ → σ} {s t : σ} {e : ε} :
    ¬ Fails (modify f : ExceptT ε (StateM σ) PUnit) s e t := fun h => by cases h

theorem not_set {s u t : σ} {e : ε} :
    ¬ Fails (set u : ExceptT ε (StateM σ) PUnit) s e t := fun h => by cases h

theorem throw_iff {e e' : ε} {s t : σ} :
    Fails (throw e : ExceptT ε (StateM σ) α) s e' t ↔ e' = e ∧ t = s :=
  ⟨fun h => by cases h; exact ⟨rfl, rfl⟩, fun ⟨h, h'⟩ => by rw [h, h']; rfl⟩

theorem map_iff {f : α → β} {x : ExceptT ε (StateM σ) α} {s t : σ} {e : ε} :
    Fails (f <$> x) s e t ↔ Fails x s e t := by
  rw [map_eq_pure_bind, bind_iff]
  constructor
  · rintro (h | ⟨_, _, _, h⟩)
    · exact h
    · exact absurd h not_pure
  · exact .inl

end Fails

end ManagedC
