import ManagedC.Proofs.Unwinding.Unskipped

/-!
# The regions of assembled methods

What a method that is assembled without a fault says of its regions can be relied on: their labels are
bound, the protected body ends in a jump behind the region and the handler, which follows at once, in
its own end (`MethodBody.Delimits`). Nothing that is assembled later moves a label or an instruction
(`MethodBody.Grows`), so what is known when a handler begins or ends stays known
(`Assembler.Reached.sealed`). Main statement: `Method.Assembled.delimited`.
-/

namespace ManagedC

open Yields

/-- A handler of a method has its place: its labels are bound, and the code between them is a protected
body and its handler. -/
structure MethodBody.Delimits (b : MethodBody) (h : Handler) (g : Region) : Prop where
  /-- The labels are bound. -/
  bound : b.region? h = some g
  /-- There is a body. -/
  body : g.tryStart < g.tryEnd
  /-- The handler follows at once. -/
  next : g.tryEnd = g.handlerStart
  /-- There is a handler. -/
  handler : g.handlerStart < g.handlerEnd
  /-- It lies in the code. -/
  inside : g.handlerEnd ≤ b.instructions.size
  /-- At the end of the body control leaves for the end of the region. -/
  leaves : b.instructions[g.tryEnd - 1]? = some (.leave h.handlerEnd)
  /-- At the end of the handler is the instruction that ends handlers. -/
  ends : b.instructions[g.handlerEnd - 1]? = some .endFinally

/-- A label is bound right behind an instruction. -/
def MethodBody.Follows (b : MethodBody) (label : Label) (i : Instruction) : Prop :=
  ∃ x, b.labels.offset? label = some (x + 1) ∧ b.instructions[x]? = some i

/-- Labels and instructions stay where they are. -/
structure MethodBody.Grows (b c : MethodBody) : Prop where
  labels : b.labels.Keeps c.labels
  instructions : ∀ (x : Nat) (i : Instruction), b.instructions[x]? = some i →
    c.instructions[x]? = some i

namespace MethodBody

variable {b c d : MethodBody}

theorem Grows.refl (b : MethodBody) : b.Grows b := ⟨fun _ _ h => h, fun _ _ h => h⟩

theorem Follows.grows {label : Label} {i : Instruction} (h : b.Follows label i) (hbc : b.Grows c) :
    c.Follows label i := by
  obtain ⟨x, hx, hi⟩ := h
  exact ⟨x, hbc.labels _ _ hx, hbc.instructions _ _ hi⟩

end MethodBody

namespace Assembler

theorem grows_push (a : Assembler) (i : Instruction) : a.method.body.Grows (a.push i).method.body := by
  refine ⟨fun _ _ h => h, fun x j hj => ?_⟩
  obtain ⟨hlt, -⟩ := Array.getElem?_eq_some_iff.1 hj
  show (a.method.body.instructions.push i)[x]? = some j
  rw [Array.getElem?_push, if_neg (Nat.ne_of_lt hlt), hj]

theorem grows_bind {a : Assembler} {label : Label}
    (h : a.method.body.labels.offset? label = none) :
    a.method.body.Grows (a.bind label).method.body :=
  ⟨LabelTable.keeps_insert h a.offset, fun _ _ hi => hi⟩

/-- A label that is bound behind an instruction that was just emitted. -/
theorem follows_bind_push (a : Assembler) (i : Instruction) (label : Label) :
    ((a.push i).bind label).method.body.Follows label i := by
  refine ⟨a.offset, ?_, Array.getElem?_push_size⟩
  rw [← Tidy.offset_push a i]
  exact LabelTable.offset?_insert_self _ _ _

/-- The bodies and the handlers that are finished are known to end where their labels say. -/
structure Sealed (a : Assembler) : Prop where
  /-- In a closed region the handler follows the body, and both have their ends. -/
  closed : ∀ h ∈ a.method.body.handlers, h.tryEnd = h.handlerStart ∧
    a.method.body.Follows h.handlerStart (.leave h.handlerEnd) ∧
    a.method.body.Follows h.handlerEnd .endFinally
  /-- In an open region whose handler is begun the body has its end. -/
  opened : ∀ o ∈ a.regions, ∀ label, o.handlerStart = some label →
    a.method.body.Follows label (.leave o.stop)

namespace Sealed

variable {a b : Assembler} {o : OpenRegion} {os : List OpenRegion} {label : Label}

/-- What leaves the regions alone leaves them sealed. -/
theorem grows (h : a.Sealed) (hab : a.method.body.Grows b.method.body)
    (hhandlers : b.method.body.handlers = a.method.body.handlers) (hregions : b.regions = a.regions) :
    b.Sealed := by
  refine ⟨fun k hk => ?_, fun o ho label hlabel => ?_⟩
  · obtain ⟨heq, hleave, hend⟩ := h.closed k (hhandlers ▸ hk)
    exact ⟨heq, hleave.grows hab, hend.grows hab⟩
  · exact (h.opened o (hregions ▸ ho) label hlabel).grows hab

theorem push (h : a.Sealed) (i : Instruction) : (a.push i).Sealed :=
  h.grows (a.grows_push i) rfl rfl

theorem bind (h : a.Sealed) (hfree : a.method.body.labels.offset? label = none) :
    (a.bind label).Sealed :=
  h.grows (grows_bind hfree) rfl rfl

/-- A region is opened. -/
theorem begins (h : a.Sealed) (ho : o.handlerStart = none)
    (hfree : a.method.body.labels.offset? o.tryStart = none) :
    ({ a.bind o.tryStart with regions := o :: a.regions } : Assembler).Sealed := by
  refine ⟨(h.bind hfree).closed, List.forall_mem_cons.2 ⟨fun label hlabel => ?_, (h.bind hfree).opened⟩⟩
  rw [ho] at hlabel
  cases hlabel

/-- The handler of the innermost region begins behind the end of the body. -/
theorem turns (h : a.Sealed) (hregions : a.regions = o :: os)
    (hfree : a.method.body.labels.offset? label = none) :
    ({ (a.push (.leave o.stop)).bind label with
      regions := { o with handlerStart := some label } :: os } : Assembler).Sealed := by
  have hb := (h.push (.leave o.stop)).bind hfree
  refine ⟨hb.closed, List.forall_mem_cons.2 ⟨?_, fun o' ho' => ?_⟩⟩
  · rintro _ ⟨⟩
    exact a.follows_bind_push (.leave o.stop) label
  · refine hb.opened o' ?_
    show o' ∈ a.regions
    exact hregions ▸ List.mem_cons_of_mem _ ho'

/-- The innermost region is closed behind the end of its handler. -/
theorem ends (h : a.Sealed) (hregions : a.regions = o :: os) (ho : o.handlerStart = some label)
    (hfree : a.method.body.labels.offset? o.stop = none) :
    ((({ a with regions := os } : Assembler).push .endFinally |>.bind o.stop).addHandler
      ⟨o.tryStart, label, label, o.stop⟩).Sealed := by
  have hb := (h.push .endFinally).bind hfree
  have hleave := hb.opened o (show o ∈ a.regions from hregions ▸ List.mem_cons_self) label ho
  refine ⟨List.forall_mem_append.2 ⟨hb.closed, List.forall_mem_singleton.2 ⟨rfl, hleave, ?_⟩⟩,
    fun o' ho' => ?_⟩
  · exact a.follows_bind_push .endFinally o.stop
  · refine hb.opened o' ?_
    show o' ∈ a.regions
    exact hregions ▸ List.mem_cons_of_mem _ ho'

end Sealed

end Assembler

/-- However a method is assembled, finished bodies and handlers are sealed. -/
theorem Assembler.Reached.sealed {a : Assembler} (h : a.Reached) : a.Sealed := by
  induction h with
  | begin name type attributes => exact ⟨nofun, nofun⟩
  | addParameter _ hstep ih =>
    obtain ⟨-, rfl⟩ := Assembly.yields_addParameter hstep
    exact ih.grows (.refl _) rfl rfl
  | addLocal _ hstep ih =>
    obtain ⟨-, rfl⟩ := Assembly.yields_addLocal hstep
    exact ih.grows (.refl _) rfl rfl
  | newLabel _ hstep ih =>
    obtain ⟨-, rfl⟩ := Assembly.yields_newLabel hstep
    exact ih.grows (.refl _) rfl rfl
  | mark _ hstep ih =>
    obtain ⟨hfree, rfl⟩ := Assembly.yields_mark hstep
    exact ih.bind hfree
  | emit _ hstep ih =>
    obtain rfl := modify_iff.1 hstep
    exact ih.push _
  | @beginTry a b stop _ hstep ih =>
    obtain ⟨hfree, rfl⟩ := Assembly.yields_beginTry hstep
    exact (ih.begins (o := ⟨a.nextLabel, none, stop⟩) rfl hfree).grows (.refl _) rfl rfl
  | beginFinally _ hstep ih =>
    obtain ⟨region, outer, hregions, -, hfree, rfl⟩ := Assembly.yields_beginFinally hstep
    exact (ih.turns hregions hfree).grows (.refl _) rfl rfl
  | endTry _ hstep ih =>
    obtain ⟨region, outer, label, hregions, hlabel, hfree, rfl⟩ := Assembly.yields_endTry hstep
    exact ih.ends hregions hlabel hfree

namespace MethodBody

variable {b : MethodBody}

/-- The regions of a table are those of its handlers, one by one. -/
theorem forall₂_of_mapM : ∀ {hs : List Handler} {regions : List Region},
    hs.mapM b.region? = some regions → List.Forall₂ (fun h g => b.region? h = some g) hs regions
  | [], regions, h => by
    cases h
    exact .nil
  | k :: hs, regions, h => by
    rw [List.mapM_cons] at h
    obtain ⟨g, hg, h⟩ := Option.bind_eq_some_iff.1 h
    obtain ⟨gs, hgs, h⟩ := Option.bind_eq_some_iff.1 h
    cases h
    exact .cons hg (forall₂_of_mapM hgs)

theorem region?_eq_some {h : Handler} {g : Region} : b.region? h = some g ↔
    b.labels.offset? h.tryStart = some g.tryStart ∧ b.labels.offset? h.tryEnd = some g.tryEnd ∧
      b.labels.offset? h.handlerStart = some g.handlerStart ∧
      b.labels.offset? h.handlerEnd = some g.handlerEnd := by
  obtain ⟨x, y, z, w⟩ := g
  unfold region?
  simp only [Option.bind_eq_bind, Option.bind_eq_some_iff, Option.pure_def, Option.some.injEq,
    Region.mk.injEq]
  constructor
  · rintro ⟨_, hx, _, hy, _, hz, _, hw, rfl, rfl, rfl, rfl⟩
    exact ⟨hx, hy, hz, hw⟩
  · rintro ⟨hx, hy, hz, hw⟩
    exact ⟨x, hx, y, hy, z, hz, w, hw, rfl, rfl, rfl, rfl⟩

end MethodBody

/-- What jumps of a finished method lead to is bound. -/
theorem Assembler.bound_of_finish {a : Assembler} {m : Method} (h : a.finish = .ok m) :
    a.regions = [] ∧ m = a.method ∧ ∀ i ∈ m.body.instructions, ∀ label, i.target? = some label →
      ∃ offset, m.body.labels.offset? label = some offset := by
  unfold finish at h
  split at h
  · cases h
  · rename_i hregions
    split at h
    · cases h
    · rename_i hunbound
      cases h
      refine ⟨by simpa using hregions, rfl, fun i hi label hlabel => ?_⟩
      have hmem : label ∈ a.method.body.instructions.toList.filterMap Instruction.target? :=
        List.mem_filterMap.2 ⟨i, Array.mem_toList_iff.2 hi, hlabel⟩
      have hbound := List.filter_eq_nil_iff.1 (List.min?_eq_none_iff.1 hunbound) label hmem
      exact Option.ne_none_iff_exists'.1 (by simpa [LabelTable.isBound] using hbound)

/-- A method that is assembled without a fault has a table of regions whose labels are bound, each a body
with its handler behind it and both with their ends; each region lies in front of those that follow in
the table, in their bodies or in their handlers; and what jumps lead to is bound in the code. -/
theorem Method.Assembled.delimited {m : Method} (h : m.Assembled) :
    (∃ regions, List.Forall₂ m.body.Delimits m.body.handlers regions ∧
      regions.Pairwise Region.ClosedBefore) ∧
    ∀ i ∈ m.body.instructions, ∀ label, i.target? = some label →
      ∃ offset, m.body.labels.offset? label = some offset ∧ offset ≤ m.body.instructions.size := by
  obtain ⟨a, ha, hfinish⟩ := h
  obtain ⟨-, rfl, hbound⟩ := Assembler.bound_of_finish hfinish
  obtain ⟨regions, htidy⟩ := ha.tidy
  refine ⟨⟨regions, ?_, htidy.nested.closed⟩, fun i hi label hlabel => ?_⟩
  · have hregions := MethodBody.forall₂_of_mapM htidy.resolved
    have hdelimits : ∀ k g, k ∈ a.method.body.handlers → g ∈ regions →
        a.method.body.region? k = some g → a.method.body.Delimits k g := by
      intro k g hk hg hkg
      obtain ⟨-, htryEnd, hhandlerStart, hhandlerEnd⟩ := MethodBody.region?_eq_some.1 hkg
      obtain ⟨hnext, ⟨x, hx, hleave⟩, y, hy, hend⟩ := ha.sealed.closed k hk
      have hstart : g.handlerStart = x + 1 := Option.some.inj (hhandlerStart.symm.trans hx)
      have hstop : g.handlerEnd = y + 1 := Option.some.inj (hhandlerEnd.symm.trans hy)
      have htry : g.tryEnd = g.handlerStart := by
        rw [hnext] at htryEnd
        exact Option.some.inj (htryEnd.symm.trans hhandlerStart)
      have hshaped := htidy.nested.shaped g hg
      refine ⟨hkg, hshaped.body, htry, hshaped.handler, htidy.finished g hg, ?_, ?_⟩
      · rw [htry, hstart]
        exact hleave
      · rw [hstop]
        exact hend
    have hleft := (List.forall₂_and_left _ _).2 ⟨fun k hk => hk, hregions⟩
    have hboth := (List.forall₂_and_left _ _).2 ⟨fun g hg => hg, hleft.flip⟩
    exact hboth.flip.imp fun k g h => hdelimits k g h.2.1 h.1 h.2.2
  · obtain ⟨offset, hoffset⟩ := hbound i hi label hlabel
    exact ⟨offset, hoffset, htidy.bound label offset hoffset⟩

/-- Two regions that begin at the same instruction: the inner one is listed first, and lies in the body of
the other. -/
theorem Method.delimited_skipping : (skipping .nop).Assembled ∧
    (skipping .nop).body.Delimits ⟨3, 5, 5, 4⟩ ⟨0, 2, 2, 4⟩ ∧
    (skipping .nop).body.Delimits ⟨1, 6, 6, 2⟩ ⟨0, 5, 5, 7⟩ ∧
    Region.ClosedBefore ⟨0, 2, 2, 4⟩ ⟨0, 5, 5, 7⟩ := by
  have hassembled : (skipping .nop).Assembled := assembled_skipping (by cbv) rfl
  obtain ⟨⟨regions, hdelimits, hclosed⟩, -⟩ := hassembled.delimited
  have hinner : (skipping .nop).body.region? ⟨3, 5, 5, 4⟩ = some ⟨0, 2, 2, 4⟩ := rfl
  have houter : (skipping .nop).body.region? ⟨1, 6, 6, 2⟩ = some ⟨0, 5, 5, 7⟩ := rfl
  cases hdelimits with
  | cons hg hrest =>
    cases hrest with
    | cons hh hnil =>
      cases hnil
      obtain rfl := Option.some.inj (hinner.symm.trans hg.bound)
      obtain rfl := Option.some.inj (houter.symm.trans hh.bound)
      exact ⟨hassembled, hg, hh, (List.pairwise_cons.1 hclosed).1 _ List.mem_cons_self⟩

end ManagedC
