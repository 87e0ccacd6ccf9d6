import ManagedC.Proofs.Run.Step

/-!
# Nested regions

Regions that are closed one after another lie behind each other, in the protected body of a later one,
or in its handler (`Region.ClosedBefore`). Then the regions that protect an instruction are listed from
the innermost to the outermost, and each of them lies in the bodies of all that follow
(`Nested.enclosing_of_covering`); an instruction of a handler is protected by regions in that handler
and by those around it (`Nested.covering_of_handles`).
-/

namespace ManagedC

namespace Region

variable {g h : Region} {x y : Nat}

/-- The instruction is part of the handler. -/
def Handles (g : Region) (x : Nat) : Prop := g.handlerStart ≤ x ∧ x < g.handlerEnd

/-- The whole region lies in the protected body of another. -/
def Under (g h : Region) : Prop := h.tryStart ≤ g.tryStart ∧ g.handlerEnd ≤ h.tryEnd

/-- The whole region lies in the handler of another. -/
def Inside (g h : Region) : Prop := h.handlerStart ≤ g.tryStart ∧ g.handlerEnd ≤ h.handlerEnd

instance (g h : Region) : Decidable (g.Under h) := inferInstanceAs (Decidable (_ ∧ _))

instance (g : Region) (x : Nat) : Decidable (g.Handles x) := inferInstanceAs (Decidable (_ ∧ _))

instance (g h : Region) : Decidable (g.Inside h) := inferInstanceAs (Decidable (_ ∧ _))

/-- Neither the body nor the handler is empty, and the handler lies behind the body. -/
structure Shaped (g : Region) : Prop where
  body : g.tryStart < g.tryEnd
  /-- The handler lies behind it. -/
  order : g.tryEnd ≤ g.handlerStart
  handler : g.handlerStart < g.handlerEnd

/-- Where a region lies that is closed before another: in front of it, in its body or in its handler. -/
def ClosedBefore (g h : Region) : Prop := g.handlerEnd ≤ h.tryStart ∨ g.Under h ∨ g.Inside h

instance (g h : Region) : Decidable (g.ClosedBefore h) := inferInstanceAs (Decidable (_ ∨ _ ∨ _))

theorem protects_iff : g.protects x = true ↔ g.tryStart ≤ x ∧ x < g.tryEnd := by
  unfold protects
  rw [Bool.and_eq_true, decide_eq_true_iff, decide_eq_true_iff]

/-- What lies in a handler does not protect the body. -/
theorem Inside.not_protects (hi : g.Inside h) (hh : h.Shaped)
    (hx : h.protects x = true) : ¬ g.protects x = true := by
  intro hgx
  have := protects_iff.1 hx
  have := protects_iff.1 hgx
  have := hh.order
  have := hi.1
  omega

theorem Inside.trans {i : Region} (hg : g.Inside h) (hh : h.Inside i) (hs : h.Shaped) : g.Inside i := by
  have := hs.body
  have := hs.order
  have := hg.1
  have := hg.2
  have := hh.1
  have := hh.2
  constructor <;> omega

/-- The instructions of a handler that lies in another belong to both. -/
theorem Inside.handles (hi : g.Inside h) (hg : g.Shaped) (hx : g.Handles x) : h.Handles x := by
  have := hg.body
  have := hg.order
  have := hi.1
  have := hi.2
  have := hx.1
  have := hx.2
  constructor <;> omega

end Region

/-- The regions in whose bodies a region lies. -/
def enclosing (regions : List Region) (g : Region) : List Region :=
  regions.filter fun h => decide (g.Under h)

/-- The regions that protect an instruction. -/
def covering (regions : List Region) (x : Nat) : List Region := regions.filter (·.protects x)

theorem mem_of_enclosing {regions gs : List Region} {g h : Region} (h' : enclosing regions g = gs)
    (hh : h ∈ gs) : h ∈ regions := by
  subst h'
  exact (List.mem_filter.1 hh).1

theorem mem_of_covering {regions gs : List Region} {g : Region} {x : Nat}
    (h : covering regions x = gs) (hg : g ∈ gs) : g ∈ regions := by
  subst h
  exact (List.mem_filter.1 hg).1

/-- Regions in the order in which they are closed. -/
structure Nested (regions : List Region) : Prop where
  /-- Each has a body and a handler behind it. -/
  shaped : ∀ g ∈ regions, g.Shaped
  /-- Each is closed before those that follow. -/
  closed : regions.Pairwise Region.ClosedBefore

namespace Nested

variable {regions : List Region} {g h : Region} {x y : Nat}

/-- What is closed before and after a region. -/
theorem split (hr : Nested regions) {before after : List Region} (h : regions = before ++ g :: after) :
    g.Shaped ∧ (∀ h ∈ before, h.Shaped ∧ h.ClosedBefore g) ∧
      ∀ h ∈ after, h.Shaped ∧ g.ClosedBefore h := by
  subst h
  have hpairs := List.pairwise_append.1 hr.closed
  refine ⟨hr.shaped g (by simp), fun h hh => ⟨hr.shaped h (by simp [hh]), ?_⟩,
    fun h hh => ⟨hr.shaped h (by simp [hh]), (List.pairwise_cons.1 hpairs.2.1).1 h hh⟩⟩
  exact hpairs.2.2 h hh g List.mem_cons_self

/-- A region lies in the bodies of regions that are closed later. -/
theorem enclosing_eq (hr : Nested regions) {before after : List Region}
    (h : regions = before ++ g :: after) :
    enclosing regions g = after.filter fun h => decide (g.Under h) := by
  obtain ⟨hg, hbefore, -⟩ := hr.split h
  have hself : ¬ g.Under g := by
    have := hg.body
    have := hg.order
    have := hg.handler
    rintro ⟨_, _⟩
    omega
  have hnone : before.filter (fun h => decide (g.Under h)) = [] := by
    refine List.filter_eq_nil_iff.2 fun h hh hunder => ?_
    obtain ⟨hshaped, hclosed⟩ := hbefore h hh
    obtain ⟨_, _⟩ := of_decide_eq_true hunder
    have := hshaped.body
    have := hshaped.order
    have := hshaped.handler
    have := hg.body
    have := hg.order
    have := hg.handler
    rcases hclosed with hfront | ⟨_, _⟩ | ⟨_, _⟩
    · omega
    · omega
    · omega
  unfold enclosing
  rw [h, List.filter_append, hnone, List.nil_append, List.filter_cons, if_neg (by simpa using hself)]

/-- Of regions that all protect an instruction, a region lies in the bodies of those that follow, and
in no other if those in whose bodies it lies are among them. -/
theorem enclosing_of_filter (hr : Nested regions) {P : Region → Bool} {l gs : List Region}
    (hP : ∀ h ∈ regions, P h = true → h.protects x = true)
    (hunder : ∀ h ∈ regions, P g = true → g.Under h → P h = true)
    (h : regions.filter P = l ++ g :: gs) : enclosing regions g = gs := by
  obtain ⟨front, back, rfl, rfl, hback⟩ := List.filter_eq_append_iff.1 h
  obtain ⟨skipped, after, rfl, -, hPg, hafter⟩ := List.filter_eq_cons_iff.1 hback
  have hsplit : front ++ (skipped ++ g :: after) = (front ++ skipped) ++ g :: after := by simp
  obtain ⟨hg, -, hclosed⟩ := hr.split hsplit
  rw [hr.enclosing_eq hsplit, ← hafter]
  refine List.filter_congr fun h hh => ?_
  have hmem : h ∈ front ++ (skipped ++ g :: after) := by simp [hh]
  rw [Bool.eq_iff_iff, decide_eq_true_iff]
  refine ⟨hunder h hmem hPg, fun hPh => ?_⟩
  have hgx := Region.protects_iff.1 (hP g (by simp) hPg)
  have hhx := Region.protects_iff.1 (hP h hmem hPh)
  obtain ⟨hshaped, hfront | hbody | ⟨_, _⟩⟩ := hclosed h hh
  · have := hg.order
    have := hg.handler
    omega
  · exact hbody
  · have := hshaped.order
    omega

/-- Each region that protects an instruction lies in the bodies of those that follow, and of no
others. -/
theorem enclosing_of_covering (hr : Nested regions) {l gs : List Region}
    (h : covering regions x = l ++ g :: gs) : enclosing regions g = gs := by
  refine hr.enclosing_of_filter (P := (·.protects x)) (fun _ _ hP => hP) (fun i _ hg hunder => ?_) h
  have hshaped := hr.shaped g (mem_of_covering h (by simp))
  have := hshaped.order
  have := hshaped.handler
  have := Region.protects_iff.1 hg
  obtain ⟨_, _⟩ := hunder
  exact Region.protects_iff.2 (by omega)

/-- Each region around another lies in the bodies of those that follow, and of no others. -/
theorem enclosing_of_enclosing (hr : Nested regions) (hg : g ∈ regions) {l gs : List Region}
    (henclosing : enclosing regions g = l ++ h :: gs) : enclosing regions h = gs := by
  have hshaped := hr.shaped g hg
  have := hshaped.body
  have := hshaped.order
  have := hshaped.handler
  refine hr.enclosing_of_filter (P := fun h => decide (g.Under h)) (x := g.tryStart) ?_ ?_ henclosing
  · intro h _ hunder
    obtain ⟨_, _⟩ := of_decide_eq_true hunder
    exact Region.protects_iff.2 (by omega)
  · intro i hi hunder ⟨_, _⟩
    have hshaped := hr.shaped h (mem_of_enclosing henclosing (by simp))
    have := hshaped.order
    have := hshaped.handler
    obtain ⟨_, _⟩ := of_decide_eq_true hunder
    exact decide_eq_true ⟨by omega, by omega⟩

/-- An instruction of a handler is protected by regions in the handler, and by those in whose bodies the
region of the handler lies. -/
theorem covering_of_handles (hr : Nested regions) (hg : g ∈ regions) (hx : g.Handles x) :
    ∃ inner, covering regions x = inner ++ enclosing regions g ∧ ∀ h ∈ inner, h.Inside g := by
  obtain ⟨before, after, hsplit⟩ := List.append_of_mem hg
  obtain ⟨hshaped, hbefore, hafter⟩ := hr.split hsplit
  have := hshaped.body
  have := hshaped.order
  have := hshaped.handler
  obtain ⟨hlow, hhigh⟩ := hx
  refine ⟨before.filter (·.protects x), ?_, ?_⟩
  · rw [hr.enclosing_eq hsplit]
    unfold covering
    have hself : ¬ g.protects x = true := fun hx => by
      have := Region.protects_iff.1 hx
      omega
    rw [hsplit, List.filter_append, List.filter_cons, if_neg hself]
    congr 1
    refine List.filter_congr fun h hh => ?_
    rw [Bool.eq_iff_iff, decide_eq_true_iff, Region.protects_iff]
    obtain ⟨hhshaped, hclosed⟩ := hafter h hh
    have := hhshaped.order
    constructor
    · rintro ⟨_, _⟩
      rcases hclosed with hfront | hbody | ⟨_, _⟩
      · omega
      · exact hbody
      · omega
    · rintro ⟨_, _⟩
      omega
  · intro h hh
    obtain ⟨hmem, hprotects⟩ := List.mem_filter.1 hh
    obtain ⟨hhshaped, hfront | ⟨_, _⟩ | hinside⟩ := hbefore h hmem
    · have := Region.protects_iff.1 hprotects
      have := hhshaped.order
      have := hhshaped.handler
      omega
    · have := Region.protects_iff.1 hprotects
      have := hhshaped.order
      have := hhshaped.handler
      omega
    · exact hinside

/-- A region whose body a jump leaves lies in each handler that has the jump and its target. -/
theorem inside_of_leaving (hr : Nested regions) (hg : g ∈ regions) (hh : h ∈ regions)
    (hx : h.protects x = true) (hy : ¬ h.protects y = true) (hgx : g.Handles x) (hgy : g.Handles y) :
    h.Inside g := by
  obtain ⟨inner, hcovering, hinside⟩ := hr.covering_of_handles hg hgx
  have hmem : h ∈ covering regions x := List.mem_filter.2 ⟨hh, hx⟩
  rw [hcovering] at hmem
  rcases List.mem_append.1 hmem with hmem | hmem
  · exact hinside h hmem
  · have hshaped := hr.shaped g hg
    have := hshaped.body
    have := hshaped.order
    obtain ⟨_, _⟩ := of_decide_eq_true (List.mem_filter.1 hmem).2
    obtain ⟨_, _⟩ := hgy
    exact absurd (Region.protects_iff.2 (by omega)) hy

/-- The regions whose bodies a jump leaves come first among those that protect it. -/
theorem covering_eq_leaving (hr : Nested regions) : ∃ outer, covering regions x =
    regions.filter (fun g => g.protects x && !g.protects y) ++ outer ∧
      ∀ g ∈ outer, g.protects y = true := by
  refine ⟨regions.filter fun g => g.protects x && g.protects y, ?_,
    fun g hg => ((Bool.and_eq_true _ _).mp (List.mem_filter.1 hg).2).2⟩
  obtain ⟨hshaped, hclosed⟩ := hr
  unfold covering
  induction regions with
  | nil => rfl
  | cons g regions ih =>
    obtain ⟨hg, hrest⟩ := List.pairwise_cons.1 hclosed
    have ih := ih (fun h hh => hshaped h (List.mem_cons_of_mem _ hh)) hrest
    rw [List.filter_cons, List.filter_cons, List.filter_cons, ih]
    cases hx : g.protects x with
    | false => simp
    | true =>
      cases hy : g.protects y with
      | false => simp
      | true =>
        -- What protects the jump and is closed later has the body of `g` in its own.
        have hnone : regions.filter (fun h => h.protects x && !h.protects y) = [] := by
          refine List.filter_eq_nil_iff.2 fun h hh hleft => ?_
          rw [Bool.and_eq_true, Bool.not_eq_true'] at hleft
          have := Region.protects_iff.1 hx
          have := Region.protects_iff.1 hy
          have := Region.protects_iff.1 hleft.1
          have hgs := hshaped g List.mem_cons_self
          have hhs := hshaped h (List.mem_cons_of_mem _ hh)
          have := hgs.order
          have := hgs.handler
          have := hhs.order
          have hinside : h.protects y = true := by
            rcases hg h hh with hfront | ⟨_, _⟩ | ⟨_, _⟩
            · omega
            · exact Region.protects_iff.2 (by omega)
            · omega
          rw [hinside] at hleft
          cases hleft.2
        rw [hnone]
        simp

end Nested

end ManagedC
