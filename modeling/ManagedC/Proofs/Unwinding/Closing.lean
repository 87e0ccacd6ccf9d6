import ManagedC.Proofs.Emit.Growth
import ManagedC.Proofs.Unwinding.Nesting

/-!
# Regions are closed in order

The regions of a method that is assembled with `Assembly.beginTry`, `Assembly.beginFinally` and
`Assembly.endTry` are nested: a region is closed behind the code that was emitted since it was opened,
and what is closed meanwhile lies in its body or in its handler, for only the innermost open region can
be closed. Main statement: `Assembler.Reached.nested`.
-/

namespace ManagedC

open Yields

/-- A method under construction that the steps of assembling a method lead to, if none fails. -/
inductive Assembler.Reached : Assembler → Prop where
  /-- The start of a method. -/
  | begin (name : String) (type : TargetType) (attributes : MethodAttributes) :
    Reached (.begin name type attributes)
  | addParameter {a b : Assembler} {name : Option String} {type : TargetType} {slot : UInt16} :
    Reached a → Yields (Assembly.addParameter name type) a slot b → Reached b
  | addLocal {a b : Assembler} {name : Option String} {type : TargetType} {pinned : Bool}
    {slot : UInt16} : Reached a → Yields (Assembly.addLocal name type pinned) a slot b → Reached b
  | newLabel {a b : Assembler} {label : Label} : Reached a → Yields Assembly.newLabel a label b →
    Reached b
  | mark {a b : Assembler} {label : Label} : Reached a → Yields (Assembly.mark label) a () b →
    Reached b
  | emit {a b : Assembler} {i : Instruction} : Reached a → Yields (Assembly.emit i) a () b → Reached b
  | beginTry {a b : Assembler} {stop : Label} : Reached a → Yields Assembly.beginTry a stop b →
    Reached b
  /-- The handler of the innermost region begins. -/
  | beginFinally {a b : Assembler} : Reached a → Yields Assembly.beginFinally a () b → Reached b
  /-- The innermost region is closed. -/
  | endTry {a b : Assembler} : Reached a → Yields Assembly.endTry a () b → Reached b

namespace LabelTable

/-- Labels keep their offsets. -/
def Keeps (t u : LabelTable) : Prop := ∀ label offset, t.offset? label = some offset →
  u.offset? label = some offset

theorem keeps_insert {t : LabelTable} {label : Label} (h : t.offset? label = none) (offset : Nat) :
    t.Keeps (t.insert label offset) := by
  intro l o hl
  have hne : l ≠ label := fun heq => by rw [heq, h] at hl; cases hl
  rw [offset?_insert_of_ne t offset hne, hl]

end LabelTable

/-- Open regions that begin at or before an offset, each in the body or the handler of the next one, and
where the closed regions lie: in front of them, in their bodies or in their handlers. -/
inductive Opens (labels : LabelTable) (closed : List Region) : Nat → List OpenRegion → Prop where
  | nil {n : Nat} : Opens labels closed n []
  /-- The body of the innermost one is not finished. -/
  | body {n x : Nat} {o : OpenRegion} {os : List OpenRegion} : labels.offset? o.tryStart = some x →
    o.handlerStart = none → x ≤ n → (∀ g ∈ closed, g.handlerEnd ≤ x ∨ x ≤ g.tryStart) →
    Opens labels closed x os → Opens labels closed n (o :: os)
  /-- Its handler is not finished. -/
  | handler {n x y : Nat} {o : OpenRegion} {h : Label} {os : List OpenRegion} :
    labels.offset? o.tryStart = some x → o.handlerStart = some h → labels.offset? h = some y →
    x < y → y ≤ n →
    (∀ g ∈ closed, g.handlerEnd ≤ x ∨ (x ≤ g.tryStart ∧ g.handlerEnd ≤ y) ∨ y ≤ g.tryStart) →
    Opens labels closed x os → Opens labels closed n (o :: os)

namespace Opens

variable {t u : LabelTable} {closed : List Region} {n m : Nat} {os : List OpenRegion}

theorem mono (h : Opens t closed n os) (hle : n ≤ m) : Opens t closed m os := by
  cases h with
  | nil => exact .nil
  | body hx hnone hn hclosed hos => exact .body hx hnone (Nat.le_trans hn hle) hclosed hos
  | handler hx hsome hy hlt hn hclosed hos =>
    exact .handler hx hsome hy hlt (Nat.le_trans hn hle) hclosed hos

theorem keeps (h : Opens t closed n os) (htu : t.Keeps u) : Opens u closed n os := by
  induction h with
  | nil => exact .nil
  | body hx hnone hn hclosed _ ih => exact .body (htu _ _ hx) hnone hn hclosed ih
  | handler hx hsome hy hlt hn hclosed _ ih =>
    exact .handler (htu _ _ hx) hsome (htu _ _ hy) hlt hn hclosed ih

/-- A region that begins behind the open ones may be closed. -/
theorem close (h : Opens t closed n os) {g : Region} (hg : n ≤ g.tryStart) :
    Opens t (closed ++ [g]) n os := by
  induction h with
  | nil => exact .nil
  | body hx hnone hn hclosed _ ih =>
    refine .body hx hnone hn (List.forall_mem_append.2 ⟨hclosed, ?_⟩) (ih (by omega))
    exact List.forall_mem_singleton.2 (.inr (by omega))
  | handler hx hsome hy hlt hn hclosed _ ih =>
    refine .handler hx hsome hy hlt hn (List.forall_mem_append.2 ⟨hclosed, ?_⟩) (ih (by omega))
    exact List.forall_mem_singleton.2 (.inr (.inr (by omega)))

end Opens

/-- The closed regions of a method under construction are nested, and lie where the open ones allow. -/
structure Assembler.Tidy (a : Assembler) (closed : List Region) : Prop where
  /-- Labels are bound in the code. -/
  bound : ∀ label x, a.method.body.labels.offset? label = some x → x ≤ a.offset
  resolved : a.method.body.handlers.mapM a.method.body.region? = some closed
  nested : Nested closed
  /-- The closed regions lie in the code. -/
  finished : ∀ g ∈ closed, g.handlerEnd ≤ a.offset
  opens : Opens a.method.body.labels closed a.offset a.regions

namespace MethodBody

/-- Regions keep their places when their labels do. -/
theorem mapM_region {b c : MethodBody} (h : b.labels.Keeps c.labels) :
    ∀ {hs : List Handler} {regions : List Region}, hs.mapM b.region? = some regions →
      hs.mapM c.region? = some regions
  | [], _, hr => hr
  | handler :: hs, regions, hr => by
    rw [List.mapM_cons] at hr ⊢
    obtain ⟨g, hg, hr⟩ := Option.bind_eq_some_iff.1 hr
    obtain ⟨gs, hgs, hr⟩ := Option.bind_eq_some_iff.1 hr
    have hregion : c.region? handler = some g := by
      unfold region? at hg ⊢
      obtain ⟨x, hx, hg⟩ := Option.bind_eq_some_iff.1 hg
      obtain ⟨y, hy, hg⟩ := Option.bind_eq_some_iff.1 hg
      obtain ⟨z, hz, hg⟩ := Option.bind_eq_some_iff.1 hg
      obtain ⟨w, hw, hg⟩ := Option.bind_eq_some_iff.1 hg
      rw [h _ _ hx, h _ _ hy, h _ _ hz, h _ _ hw]
      exact hg
    rw [hregion, mapM_region h hgs]
    exact hr

end MethodBody

namespace Assembler.Tidy

variable {a : Assembler} {closed : List Region}

/-- What does not concern code, labels and regions may change. -/
theorem congr {b : Assembler} (h : a.Tidy closed) (hbody : b.method.body = a.method.body)
    (hregions : b.regions = a.regions) : b.Tidy closed := by
  have hoffset : b.offset = a.offset := by
    unfold offset
    rw [hbody]
  exact ⟨by rw [hbody, hoffset]; exact h.bound, by rw [hbody]; exact h.resolved, h.nested,
    by rw [hoffset]; exact h.finished, by rw [hbody, hoffset, hregions]; exact h.opens⟩

theorem offset_push (a : Assembler) (i : Instruction) : (a.push i).offset = a.offset + 1 :=
  Array.size_push i

theorem push (h : a.Tidy closed) (i : Instruction) : (a.push i).Tidy closed where
  bound label x hx := by
    have := h.bound label x hx
    rw [offset_push]
    omega
  resolved := h.resolved
  nested := h.nested
  finished g hg := by
    have := h.finished g hg
    rw [offset_push]
    omega
  opens := h.opens.mono (by rw [offset_push]; omega)

theorem bind (h : a.Tidy closed) {label : Label}
    (hlabel : a.method.body.labels.offset? label = none) : (a.bind label).Tidy closed where
  bound l x hx := by
    by_cases heq : l = label
    · subst heq
      have hself := LabelTable.offset?_insert_self a.method.body.labels l a.offset
      rw [show (a.bind l).method.body.labels.offset? l = some a.offset from hself] at hx
      cases hx
      exact Nat.le_refl _
    · have hne := LabelTable.offset?_insert_of_ne a.method.body.labels a.offset heq
      exact h.bound l x (hne ▸ hx)
  resolved := MethodBody.mapM_region (LabelTable.keeps_insert hlabel a.offset) h.resolved
  nested := h.nested
  finished := h.finished
  opens := h.opens.keeps (LabelTable.keeps_insert hlabel a.offset)

/-- A region is opened at the next instruction. -/
theorem begins (h : a.Tidy closed) {o : OpenRegion} (ho : o.handlerStart = none)
    (hfree : a.method.body.labels.offset? o.tryStart = none) :
    ({ a.bind o.tryStart with regions := o :: a.regions } : Assembler).Tidy closed :=
  { h.bind hfree with
    opens := .body (LabelTable.offset?_insert_self _ _ _) ho (Nat.le_refl _)
      (fun g hg => .inl (h.finished g hg)) (h.bind hfree).opens }

/-- The handler of the innermost region begins behind an instruction of the body. -/
theorem turns (h : a.Tidy closed) {o : OpenRegion} {os : List OpenRegion} {label : Label}
    (hregions : a.regions = o :: os) (ho : o.handlerStart = none)
    (hfree : a.method.body.labels.offset? label = none) (i : Instruction) :
    ({ (a.push i).bind label with
      regions := { o with handlerStart := some label } :: os } : Assembler).Tidy closed := by
  have hb := (h.push i).bind hfree
  have hopens := h.opens.keeps (LabelTable.keeps_insert hfree (a.push i).offset)
  rw [hregions] at hopens
  cases hopens with
  | @body _ x _ _ hstart _ hle hplaces hos =>
    have hlt : x < (a.push i).offset := by
      rw [offset_push]
      omega
    refine { hb with
      opens := .handler (o := { o with handlerStart := some label }) hstart rfl
        (LabelTable.offset?_insert_self _ _ _) hlt (Nat.le_refl _) (fun g hg => ?_) hos }
    have hfinished := hb.finished g hg
    exact (hplaces g hg).imp_right fun hbody => .inl ⟨hbody, hfinished⟩
  | handler _ hsome =>
    rw [ho] at hsome
    cases hsome

/-- The innermost region is closed behind an instruction of its handler. -/
theorem ends (h : a.Tidy closed) {o : OpenRegion} {os : List OpenRegion} {label : Label}
    (hregions : a.regions = o :: os) (ho : o.handlerStart = some label)
    (hfree : a.method.body.labels.offset? o.stop = none) (i : Instruction) :
    ∃ g, ((({ a with regions := os } : Assembler).push i |>.bind o.stop).addHandler
      ⟨o.tryStart, label, label, o.stop⟩).Tidy (closed ++ [g]) := by
  have hb := (h.push i).bind hfree
  have hopens := h.opens.keeps (LabelTable.keeps_insert hfree (a.push i).offset)
  rw [hregions] at hopens
  cases hopens with
  | body _ hnone =>
    rw [ho] at hnone
    cases hnone
  | @handler _ x y _ label' _ hstart hsome hhandler hlt hle hplaces hos =>
    obtain rfl : label = label' := Option.some.inj (ho.symm.trans hsome)
    have hbehind : y < (a.push i).offset := by
      rw [offset_push]
      omega
    have hregion : ((a.push i).bind o.stop).method.body.region? ⟨o.tryStart, label, label, o.stop⟩ =
        some ⟨x, y, y, (a.push i).offset⟩ := by
      unfold MethodBody.region?
      have hstop := LabelTable.offset?_insert_self a.method.body.labels o.stop (a.push i).offset
      simp only [show ((a.push i).bind o.stop).method.body.labels =
        a.method.body.labels.insert o.stop (a.push i).offset from rfl, hstart, hhandler, hstop]
      rfl
    refine ⟨⟨x, y, y, (a.push i).offset⟩, hb.bound, ?_, ⟨?_, ?_⟩, ?_, ?_⟩
    · show (a.method.body.handlers ++ [_]).mapM ((a.push i).bind o.stop).method.body.region? = _
      have hresolved : a.method.body.handlers.mapM ((a.push i).bind o.stop).method.body.region? =
        some closed := hb.resolved
      rw [List.mapM_append, hresolved, List.mapM_cons, hregion]
      rfl
    · refine List.forall_mem_append.2 ⟨h.nested.shaped, List.forall_mem_singleton.2 ?_⟩
      exact ⟨hlt, Nat.le_refl _, hbehind⟩
    · refine List.pairwise_append.2 ⟨h.nested.closed, List.pairwise_singleton _ _, ?_⟩
      intro g hg _ hlast
      obtain rfl := List.mem_singleton.1 hlast
      have hfinished := hb.finished g hg
      rcases hplaces g hg with hfront | ⟨hlow, hhigh⟩ | hlow
      · exact .inl hfront
      · exact .inr (.inl ⟨hlow, hhigh⟩)
      · exact .inr (.inr ⟨hlow, hfinished⟩)
    · exact List.forall_mem_append.2 ⟨hb.finished, List.forall_mem_singleton.2 (Nat.le_refl _)⟩
    · refine (hos.close (g := ⟨x, y, y, (a.push i).offset⟩) (Nat.le_refl _)).mono ?_
      show x ≤ (a.push i).offset
      omega

end Assembler.Tidy

/-! ## The steps -/

namespace Assembly

variable {a b : Assembler}

/-- A region is opened with two fresh labels, the first of which is bound to its start. -/
theorem yields_beginTry {stop : Label} (h : Yields beginTry a stop b) :
    a.method.body.labels.offset? a.nextLabel = none ∧
      b = { ({ a with nextLabel := a.nextLabel + 1 + 1 } : Assembler).bind a.nextLabel with
        regions := ⟨a.nextLabel, none, stop⟩ :: a.regions } := by
  unfold beginTry at h
  simp only [bind_iff, modify_iff, pure_iff] at h
  obtain ⟨_, _, hfirst, _, _, hsecond, _, c, hmark, _, _, rfl, rfl, rfl⟩ := h
  obtain ⟨hfree, rfl⟩ := yields_mark hmark
  obtain ⟨rfl, rfl⟩ := yields_newLabel hsecond
  obtain ⟨rfl, rfl⟩ := yields_newLabel hfirst
  exact ⟨hfree, rfl⟩

/-- The handler of the innermost region, which has none yet, begins at a fresh label, behind a jump out
of the region. -/
theorem yields_beginFinally (h : Yields beginFinally a () b) :
    ∃ region outer, a.regions = region :: outer ∧ region.handlerStart = none ∧
      a.method.body.labels.offset? a.nextLabel = none ∧
      b = { ({ a.push (.leave region.stop) with nextLabel := a.nextLabel + 1 } : Assembler).bind
          a.nextLabel with
        regions := { region with handlerStart := some a.nextLabel } :: outer } := by
  unfold beginFinally at h
  simp only [bind_iff, get_iff] at h
  obtain ⟨_, _, ⟨rfl, rfl⟩, h⟩ := h
  split at h
  · exact absurd h not_throw
  · rename_i region outer hregions
    split at h
    · simp only [bind_iff, not_throw, false_and, exists_false] at h
    · rename_i hnone
      unfold emit at h
      simp only [bind_iff, modify_iff] at h
      obtain ⟨_, _, rfl, _, c, hlabel, _, d, hmark, rfl⟩ := h
      obtain ⟨hfree, rfl⟩ := yields_mark hmark
      obtain ⟨rfl, rfl⟩ := yields_newLabel hlabel
      exact ⟨region, outer, hregions, by simpa using hnone, hfree, rfl⟩

/-- The innermost region, which has a handler, is closed behind the end of the handler. -/
theorem yields_endTry (h : Yields endTry a () b) :
    ∃ region outer handlerStart, a.regions = region :: outer ∧
      region.handlerStart = some handlerStart ∧
      a.method.body.labels.offset? region.stop = none ∧
      b = (({ a with regions := outer } : Assembler).push .endFinally |>.bind region.stop).addHandler
        ⟨region.tryStart, handlerStart, handlerStart, region.stop⟩ := by
  unfold endTry at h
  simp only [bind_iff, get_iff] at h
  obtain ⟨_, _, ⟨rfl, rfl⟩, h⟩ := h
  split at h
  · exact absurd h not_throw
  · rename_i region outer hregions
    split at h
    · exact absurd h not_throw
    · rename_i label hlabel
      unfold emit at h
      simp only [bind_iff, modify_iff] at h
      obtain ⟨_, _, rfl, _, _, rfl, _, d, hmark, rfl⟩ := h
      obtain ⟨hfree, rfl⟩ := yields_mark hmark
      exact ⟨region, outer, label, hregions, hlabel, hfree, rfl⟩

end Assembly

/-- However a method is assembled, it stays tidy. -/
theorem Assembler.Reached.tidy {a : Assembler} (h : a.Reached) : ∃ closed, a.Tidy closed := by
  induction h with
  | begin name type attributes =>
    refine ⟨[], ?_, rfl, ⟨by simp, .nil⟩, by simp, .nil⟩
    intro label x hx
    cases hx
  | addParameter _ hstep ih =>
    obtain ⟨closed, ha⟩ := ih
    obtain ⟨-, rfl⟩ := Assembly.yields_addParameter hstep
    exact ⟨closed, ha.congr rfl rfl⟩
  | addLocal _ hstep ih =>
    obtain ⟨closed, ha⟩ := ih
    obtain ⟨-, rfl⟩ := Assembly.yields_addLocal hstep
    exact ⟨closed, ha.congr rfl rfl⟩
  | newLabel _ hstep ih =>
    obtain ⟨closed, ha⟩ := ih
    obtain ⟨-, rfl⟩ := Assembly.yields_newLabel hstep
    exact ⟨closed, ha.congr rfl rfl⟩
  | mark _ hstep ih =>
    obtain ⟨closed, ha⟩ := ih
    obtain ⟨hfree, rfl⟩ := Assembly.yields_mark hstep
    exact ⟨closed, ha.bind hfree⟩
  | emit _ hstep ih =>
    obtain ⟨closed, ha⟩ := ih
    obtain rfl := modify_iff.1 hstep
    exact ⟨closed, ha.push _⟩
  | @beginTry a b stop _ hstep ih =>
    obtain ⟨closed, ha⟩ := ih
    obtain ⟨hfree, rfl⟩ := Assembly.yields_beginTry hstep
    exact ⟨closed, (ha.begins (o := ⟨a.nextLabel, none, stop⟩) rfl hfree).congr rfl rfl⟩
  | beginFinally _ hstep ih =>
    obtain ⟨closed, ha⟩ := ih
    obtain ⟨region, outer, hregions, hnone, hfree, rfl⟩ := Assembly.yields_beginFinally hstep
    exact ⟨closed, (ha.turns hregions hnone hfree (.leave region.stop)).congr rfl rfl⟩
  | endTry _ hstep ih =>
    obtain ⟨closed, ha⟩ := ih
    obtain ⟨region, outer, label, hregions, hlabel, hfree, rfl⟩ := Assembly.yields_endTry hstep
    obtain ⟨g, hb⟩ := ha.ends hregions hlabel hfree .endFinally
    exact ⟨closed ++ [g], hb⟩

/-- However a method is assembled, the labels of its closed regions are bound, and the regions are
nested. -/
theorem Assembler.Reached.nested {a : Assembler} (h : a.Reached) :
    ∃ regions, a.method.body.handlers.mapM a.method.body.region? = some regions ∧ Nested regions := by
  obtain ⟨closed, ha⟩ := h.tidy
  exact ⟨closed, ha.resolved, ha.nested⟩

end ManagedC
