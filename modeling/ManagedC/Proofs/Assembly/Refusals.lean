import ManagedC.Proofs.Assembly.Regions

/-!
# Refused steps of assembling a method

A step of assembling a method that is refused leaves the method as it was, but for two kinds of steps: a
label that is bound already is bound anew before that is noticed, and so is the label behind a region,
which then is not open any more and was not closed either (`Assembler.Breaks`). Whether a label is bound
is all that matters for this, so the only thing to know of the method under construction is that no label
is bound before it is handed out (`Assembler.Attained.allotted`). Main statement:
`Assembler.Attained.refuses`.
-/

namespace ManagedC

open Yields

/-- A step of assembling a method. -/
inductive AssemblyStep where
  /-- A parameter. -/
  | addParameter (name : Option String) (type : TargetType)
  /-- A local variable. -/
  | addLocal (name : Option String) (type : TargetType) (pinned : Bool)
  /-- A label. -/
  | newLabel
  /-- A label is bound. -/
  | mark (label : Label)
  /-- An instruction. -/
  | emit (i : Instruction)
  /-- A region is opened. -/
  | beginTry
  /-- The handler of the innermost region begins. -/
  | beginFinally
  /-- The innermost region is closed. -/
  | endTry

/-- What the step does. -/
def AssemblyStep.run : AssemblyStep → Assembly Unit
  | addParameter name type => discard (Assembly.addParameter name type)
  | addLocal name type pinned => discard (Assembly.addLocal name type pinned)
  | newLabel => discard Assembly.newLabel
  | mark label => Assembly.mark label
  | emit i => Assembly.emit i
  | beginTry => discard Assembly.beginTry
  | beginFinally => Assembly.beginFinally
  | endTry => Assembly.endTry

namespace Assembler

variable {a b c : Assembler} {label : Label}

/-- The method under construction after a step, whether the step is refused or not. -/
def perform (a : Assembler) (step : AssemblyStep) : Assembler := (step.run a).2

/-- A method under construction that steps lead to, some of which may have been refused. -/
inductive Attained : Assembler → Prop where
  /-- The start of a method. -/
  | begin (name : String) (type : TargetType) (attributes : MethodAttributes) :
    Attained (.begin name type attributes)
  | step {a : Assembler} (step : AssemblyStep) : Attained a → Attained (a.perform step)

/-- A step is refused for what it asks. -/
inductive Refuses (a : Assembler) : AssemblyStep → AssemblerFault → Prop where
  /-- A label that was not handed out is to be bound. -/
  | unknownLabel {label : Label} : a.nextLabel ≤ label →
    Refuses a (.mark label) (.unknownLabel label)
  /-- A handler is to begin without a region. -/
  | finallyWithoutRegion : a.regions = [] → Refuses a .beginFinally .finallyWithoutRegion
  /-- A handler is to begin once more. -/
  | handlerAlreadyStarted {region : OpenRegion} {outer : List OpenRegion} :
    a.regions = region :: outer → region.handlerStart.isSome →
    Refuses a .beginFinally .handlerAlreadyStarted
  /-- A region is to be closed and there is none. -/
  | endWithoutRegion : a.regions = [] → Refuses a .endTry .endWithoutRegion
  /-- A region is to be closed and has no handler. -/
  | endBeforeFinally {region : OpenRegion} {outer : List OpenRegion} :
    a.regions = region :: outer → region.handlerStart = none →
    Refuses a .endTry .endBeforeFinally

/-- A step is refused, and not everything is as before. -/
inductive Breaks (a : Assembler) : AssemblyStep → AssemblerFault → Assembler → Prop where
  /-- A label that is bound already is bound to the next instruction. -/
  | moved {label : Label} : label < a.nextLabel → a.method.body.labels.isBound label →
    Breaks a (.mark label) (.labelMarkedTwice label a.method.name) (a.bind label)
  /-- So is the label behind the innermost region, which is not open any more. -/
  | lost {region : OpenRegion} {outer : List OpenRegion} :
    a.regions = region :: outer → region.handlerStart.isSome → region.stop < a.nextLabel →
    a.method.body.labels.isBound region.stop →
    Breaks a .endTry (.labelMarkedTwice region.stop a.method.name)
      (({ a with regions := outer } : Assembler).push .endFinally |>.bind region.stop)

/-- Labels are handed out before they are used. -/
structure Allotted (a : Assembler) : Prop where
  bound : ∀ label, a.method.body.labels.isBound label → label < a.nextLabel
  /-- Before they stand for the end of a region. -/
  stops : ∀ o ∈ a.regions, o.stop < a.nextLabel

/-- More steps, each of which may be refused, but none of which loses a region. -/
inductive Continues (a : Assembler) : Assembler → Prop where
  | refl : Continues a a
  | step {b : Assembler} (step : AssemblyStep) : Continues a b →
    (∀ f c, step = .endTry → ¬ b.Breaks .endTry f c) → Continues a (b.perform step)

/-- A region is open, or it is closed and in the table. -/
def Has (a : Assembler) (tryStart stop : Label) : Prop :=
  (∃ o ∈ a.regions, o.tryStart = tryStart ∧ o.stop = stop) ∨
    ∃ h ∈ a.method.body.handlers, h.tryStart = tryStart ∧ h.handlerEnd = stop

end Assembler

/-! ## What steps do -/

namespace LabelTable

theorem isBound_insert {t : LabelTable} {label l : Label} {offset : Nat} :
    (t.insert label offset).isBound l ↔ l = label ∨ t.isBound l := by
  unfold isBound
  by_cases h : l = label
  · subst h
    rw [offset?_insert_self]
    simp
  · rw [offset?_insert_of_ne t offset h]
    simp [h]

end LabelTable

/-- A computation without its answer. -/
theorem discard_apply {ε σ α : Type} (x : ExceptT ε (StateM σ) α) (s : σ) :
    (discard x : ExceptT ε (StateM σ) Unit) s = ((x s).1.map fun _ => (), (x s).2) := by
  show (x >>= fun _ => pure ()) s = _
  rw [bind_apply]
  rcases x s with ⟨_ | _, _⟩ <;> rfl

namespace Assembly

variable {a b : Assembler} {f : AssemblerFault} {label : Label}

/-- Binding a label, as a case distinction. -/
theorem mark_apply (label : Label) (a : Assembler) : mark label a =
    if a.nextLabel ≤ label then (.error (.unknownLabel label), a)
    else if a.method.body.labels.isBound label then
      (.error (.labelMarkedTwice label a.method.name), a.bind label)
    else (.ok (), a.bind label) := by
  unfold mark
  rw [get_bind_apply]
  by_cases hhanded : a.nextLabel ≤ label
  · rw [if_pos hhanded, if_pos hhanded]
    rfl
  · rw [if_neg hhanded, if_neg hhanded]
    by_cases hbound : a.method.body.labels.isBound label
    · rw [if_pos hbound, if_pos hbound]
      rfl
    · rw [if_neg hbound, if_neg hbound]
      rfl

/-- A fresh label can be bound. -/
theorem mark_fresh (h : a.Allotted) {nextLabel : Label} (hle : a.nextLabel ≤ label)
    (hlt : label < nextLabel) : mark label { a with nextLabel := nextLabel } =
      (.ok (), ({ a with nextLabel := nextLabel } : Assembler).bind label) := by
  have hfree : ¬ a.method.body.labels.isBound label = true :=
    fun hbound => Nat.not_lt.2 hle (h.bound label hbound)
  rw [mark_apply, if_neg (Nat.not_le.2 hlt), if_neg hfree]

/-- A region can always be opened. -/
theorem beginTry_apply (h : a.Allotted) : beginTry a = (.ok (a.nextLabel + 1),
    { ({ a with nextLabel := a.nextLabel + 2 } : Assembler).bind a.nextLabel with
      regions := ⟨a.nextLabel, none, a.nextLabel + 1⟩ :: a.regions }) := by
  have hmark := mark_fresh h (Nat.le_refl a.nextLabel) (Nat.lt_add_of_pos_right Nat.two_pos)
  show (mark a.nextLabel >>= fun _ => _) { a with nextLabel := a.nextLabel + 2 } = _
  rw [bind_apply, hmark]
  rfl

/-- The handler of the innermost region begins, unless the region has one or there is no region. -/
theorem beginFinally_apply (h : a.Allotted) : beginFinally a =
    match a.regions with
    | [] => (.error .finallyWithoutRegion, a)
    | region :: outer =>
      if region.handlerStart.isSome then (.error .handlerAlreadyStarted, a)
      else (.ok (), { ({ a.push (.leave region.stop) with
          nextLabel := a.nextLabel + 1 } : Assembler).bind a.nextLabel with
        regions := { region with handlerStart := some a.nextLabel } :: outer }) := by
  unfold beginFinally
  rw [get_bind_apply]
  cases a.regions with
  | nil => rfl
  | cons region outer =>
    dsimp only
    split
    · rfl
    · have hpush : (a.push (.leave region.stop)).Allotted := ⟨h.bound, h.stops⟩
      have hmark := mark_fresh hpush (Nat.le_refl a.nextLabel) (Nat.lt_succ_self a.nextLabel)
      show (mark a.nextLabel >>= fun _ => _)
        { a.push (.leave region.stop) with nextLabel := a.nextLabel + 1 } = _
      rw [bind_apply, hmark]
      rfl

/-- The innermost region is closed, unless it has no handler, there is no region, or its label is
bound. -/
theorem endTry_apply (h : a.Allotted) : endTry a =
    match a.regions with
    | [] => (.error .endWithoutRegion, a)
    | region :: outer =>
      match region.handlerStart with
      | none => (.error .endBeforeFinally, a)
      | some handlerStart =>
        let closing := ({ a with regions := outer } : Assembler).push .endFinally |>.bind region.stop
        if a.method.body.labels.isBound region.stop then
          (.error (.labelMarkedTwice region.stop a.method.name), closing)
        else (.ok (), closing.addHandler ⟨region.tryStart, handlerStart, handlerStart, region.stop⟩) := by
  unfold endTry
  rw [get_bind_apply]
  cases hregions : a.regions with
  | nil => rfl
  | cons region outer =>
    have hstop := h.stops region (hregions ▸ List.mem_cons_self)
    dsimp only
    cases region.handlerStart with
    | none => rfl
    | some handlerStart =>
      show (mark region.stop >>= fun _ => _)
        (({ a with regions := outer } : Assembler).push .endFinally) = _
      have hhanded : ¬ (({ a with regions := outer } : Assembler).push .endFinally).nextLabel ≤
        region.stop := Nat.not_le.2 hstop
      rw [bind_apply, mark_apply, if_neg hhanded]
      by_cases hbound : a.method.body.labels.isBound region.stop
      · have hbound' : (({ a with regions := outer } : Assembler).push
          .endFinally).method.body.labels.isBound region.stop := hbound
        rw [if_pos hbound']
        exact (if_pos hbound).symm
      · have hbound' : ¬ (({ a with regions := outer } : Assembler).push
          .endFinally).method.body.labels.isBound region.stop := hbound
        rw [if_neg hbound']
        exact (if_neg hbound).symm

end Assembly

namespace Assembler

variable {a b c : Assembler} {step : AssemblyStep} {f : AssemblerFault} {label tryStart stop : Label}

/-! ## Labels that are handed out -/

/-- Labels stay handed out before they are used where more of them are handed out. -/
theorem Allotted.grow (h : a.Allotted) (hnext : a.nextLabel ≤ b.nextLabel)
    (hbound : ∀ l, b.method.body.labels.isBound l →
      a.method.body.labels.isBound l ∨ l < b.nextLabel)
    (hstops : ∀ o ∈ b.regions, o ∈ a.regions ∨ o.stop < b.nextLabel) : b.Allotted := by
  refine ⟨fun l hl => ?_, fun o ho => ?_⟩
  · rcases hbound l hl with hold | hnew
    · exact Nat.lt_of_lt_of_le (h.bound l hold) hnext
    · exact hnew
  · rcases hstops o ho with hold | hnew
    · exact Nat.lt_of_lt_of_le (h.stops o hold) hnext
    · exact hnew

theorem Allotted.bind (h : a.Allotted) (hlabel : label < a.nextLabel) : (a.bind label).Allotted := by
  refine h.grow (Nat.le_refl a.nextLabel) (fun l hl => ?_) fun o ho => .inl ho
  rcases LabelTable.isBound_insert.1 hl with rfl | hl
  · exact .inr hlabel
  · exact .inl hl

/-- Every step keeps it that way, also where it is refused. -/
theorem Allotted.perform (h : a.Allotted) (step : AssemblyStep) : (a.perform step).Allotted := by
  unfold Assembler.perform
  cases step with
  | addParameter name type => exact ⟨h.bound, h.stops⟩
  | addLocal name type pinned => exact ⟨h.bound, h.stops⟩
  | newLabel =>
    exact h.grow (Nat.le_succ a.nextLabel) (fun l hl => .inl hl) fun o ho => .inl ho
  | emit i => exact ⟨h.bound, h.stops⟩
  | mark label =>
    rw [AssemblyStep.run, Assembly.mark_apply]
    split
    · exact h
    · rename_i hhanded
      split
      · exact h.bind (Nat.not_le.1 hhanded)
      · exact h.bind (Nat.not_le.1 hhanded)
  | beginTry =>
    have hpair : ({ a with nextLabel := a.nextLabel + 2 } : Assembler).Allotted :=
      h.grow (Nat.le_add_right a.nextLabel 2) (fun l hl => .inl hl) fun o ho => .inl ho
    have hbind := hpair.bind (Nat.lt_add_of_pos_right (n := a.nextLabel) Nat.two_pos)
    rw [AssemblyStep.run, discard_apply, Assembly.beginTry_apply h]
    refine ⟨hbind.bound, List.forall_mem_cons.2 ⟨?_, hbind.stops⟩⟩
    exact Nat.lt_succ_self (a.nextLabel + 1)
  | beginFinally =>
    rw [AssemblyStep.run, Assembly.beginFinally_apply h]
    cases hregions : a.regions with
    | nil => exact h
    | cons region outer =>
      have hstops := List.forall_mem_cons.1 (hregions ▸ h.stops)
      have hone : ({ a.push (.leave region.stop) with
          nextLabel := a.nextLabel + 1 } : Assembler).Allotted :=
        h.grow (Nat.le_succ a.nextLabel) (fun l hl => .inl hl) fun o ho => .inl ho
      dsimp only
      split
      · exact h
      · have hbind := hone.bind (Nat.lt_succ_self a.nextLabel)
        refine ⟨hbind.bound, List.forall_mem_cons.2 ⟨Nat.lt_succ_of_lt hstops.1, fun o ho => ?_⟩⟩
        exact Nat.lt_succ_of_lt (hstops.2 o ho)
  | endTry =>
    rw [AssemblyStep.run, Assembly.endTry_apply h]
    cases hregions : a.regions with
    | nil => exact h
    | cons region outer =>
      have hstops := List.forall_mem_cons.1 (hregions ▸ h.stops)
      have hclosing : (({ a with regions := outer } : Assembler).push .endFinally |>.bind
          region.stop).Allotted :=
        Allotted.bind ⟨h.bound, hstops.2⟩ hstops.1
      dsimp only
      cases region.handlerStart with
      | none => exact h
      | some handlerStart =>
        dsimp only
        split
        · exact hclosing
        · exact ⟨hclosing.bound, hclosing.stops⟩

/-- However a method is assembled, labels are handed out before they are used. -/
theorem Attained.allotted (h : a.Attained) : a.Allotted := by
  induction h with
  | begin name type attributes => exact ⟨nofun, nofun⟩
  | step step _ ih => exact ih.perform step

/-! ## Refusals -/

/-- When a step is refused, and what that leaves behind. -/
theorem Allotted.fails_iff (h : a.Allotted) :
    Fails step.run a f b ↔ a.Refuses step f ∧ b = a ∨ a.Breaks step f b := by
  unfold Fails
  cases step with
  | addParameter name type => exact ⟨nofun, fun hfails => hfails.elim (fun hrefuses => nomatch hrefuses.1) nofun⟩
  | addLocal name type pinned => exact ⟨nofun, fun hfails => hfails.elim (fun hrefuses => nomatch hrefuses.1) nofun⟩
  | newLabel => exact ⟨nofun, fun hfails => hfails.elim (fun hrefuses => nomatch hrefuses.1) nofun⟩
  | emit i => exact ⟨nofun, fun hfails => hfails.elim (fun hrefuses => nomatch hrefuses.1) nofun⟩
  | mark label =>
    rw [AssemblyStep.run, Assembly.mark_apply]
    constructor
    · intro hrun
      split at hrun
      · rename_i hhanded
        cases hrun
        exact .inl ⟨.unknownLabel hhanded, rfl⟩
      · rename_i hhanded
        split at hrun
        · rename_i hbound
          cases hrun
          exact .inr (.moved (Nat.not_le.1 hhanded) hbound)
        · cases hrun
    · rintro (⟨⟨hhanded⟩, rfl⟩ | ⟨hhanded, hbound⟩)
      · rw [if_pos hhanded]
      · rw [if_neg (Nat.not_le.2 hhanded), if_pos hbound]
  | beginTry =>
    rw [AssemblyStep.run, discard_apply, Assembly.beginTry_apply h]
    exact ⟨nofun, fun hfails => hfails.elim (fun hrefuses => nomatch hrefuses.1) nofun⟩
  | beginFinally =>
    rw [AssemblyStep.run, Assembly.beginFinally_apply h]
    constructor
    · intro hrun
      cases hregions : a.regions with
      | nil =>
        rw [hregions] at hrun
        cases hrun
        exact .inl ⟨.finallyWithoutRegion hregions, rfl⟩
      | cons region outer =>
        rw [hregions] at hrun
        dsimp only at hrun
        split at hrun
        · rename_i hstart
          cases hrun
          exact .inl ⟨.handlerAlreadyStarted hregions hstart, rfl⟩
        · cases hrun
    · rintro (⟨hrefuses, rfl⟩ | hbreaks)
      · cases hrefuses with
        | finallyWithoutRegion hregions => rw [hregions]
        | handlerAlreadyStarted hregions hstart =>
          rw [hregions]
          exact if_pos hstart
      · cases hbreaks
  | endTry =>
    rw [AssemblyStep.run, Assembly.endTry_apply h]
    constructor
    · intro hrun
      cases hregions : a.regions with
      | nil =>
        rw [hregions] at hrun
        cases hrun
        exact .inl ⟨.endWithoutRegion hregions, rfl⟩
      | cons region outer =>
        have hstop := h.stops region (hregions ▸ List.mem_cons_self)
        rw [hregions] at hrun
        dsimp only at hrun
        cases hstart : region.handlerStart with
        | none =>
          rw [hstart] at hrun
          cases hrun
          exact .inl ⟨.endBeforeFinally hregions hstart, rfl⟩
        | some handlerStart =>
          rw [hstart] at hrun
          dsimp only at hrun
          split at hrun
          · rename_i hbound
            cases hrun
            exact .inr (.lost hregions (hstart ▸ rfl) hstop hbound)
          · cases hrun
    · rintro (⟨hrefuses, rfl⟩ | hbreaks)
      · cases hrefuses with
        | endWithoutRegion hregions => rw [hregions]
        | endBeforeFinally hregions hstart =>
          rw [hregions]
          dsimp only
          rw [hstart]
      · cases hbreaks with
        | lost hregions hstart hstop hbound =>
          obtain ⟨handlerStart, hstart⟩ := Option.isSome_iff_exists.1 hstart
          rw [hregions]
          dsimp only
          rw [hstart]
          exact if_pos hbound

/-! ## Regions -/

/-- A region stays where the regions and the handlers are the same. -/
theorem Has.same (h : a.Has tryStart stop) (hregions : b.regions = a.regions)
    (hhandlers : b.method.body.handlers = a.method.body.handlers) : b.Has tryStart stop := by
  unfold Has
  rw [hregions, hhandlers]
  exact h

/-- A step that does not lose a region keeps every region, open or in the table. -/
theorem Has.perform (h : a.Has tryStart stop) (ha : a.Allotted)
    (hstep : ∀ f c, step = .endTry → ¬ a.Breaks .endTry f c) : (a.perform step).Has tryStart stop := by
  unfold Assembler.perform
  cases step with
  | addParameter name type => exact h
  | addLocal name type pinned => exact h
  | newLabel => exact h
  | emit i => exact h
  | mark label =>
    rw [AssemblyStep.run, Assembly.mark_apply]
    split
    · exact h
    · split
      · exact h.same rfl rfl
      · exact h.same rfl rfl
  | beginTry =>
    rw [AssemblyStep.run, discard_apply, Assembly.beginTry_apply ha]
    exact h.imp (fun ⟨o, ho, heq⟩ => ⟨o, List.mem_cons_of_mem _ ho, heq⟩) id
  | beginFinally =>
    rw [AssemblyStep.run, Assembly.beginFinally_apply ha]
    cases hregions : a.regions with
    | nil => exact h
    | cons region outer =>
      dsimp only
      split
      · exact h
      · refine h.imp (fun ⟨o, ho, heq⟩ => ?_) id
        rw [hregions] at ho
        rcases List.mem_cons.1 ho with rfl | ho
        · exact ⟨_, List.mem_cons_self, heq⟩
        · exact ⟨o, List.mem_cons_of_mem _ ho, heq⟩
  | endTry =>
    rw [AssemblyStep.run, Assembly.endTry_apply ha]
    cases hregions : a.regions with
    | nil => exact h
    | cons region outer =>
      have hhanded := ha.stops region (hregions ▸ List.mem_cons_self)
      dsimp only
      cases hstart : region.handlerStart with
      | none => exact h
      | some handlerStart =>
        dsimp only
        split
        · rename_i hbound
          exact absurd (.lost hregions (hstart ▸ rfl) hhanded hbound) (hstep _ _ rfl)
        · rcases h with ⟨o, ho, heq⟩ | ⟨k, hk, heq⟩
          · rw [hregions] at ho
            rcases List.mem_cons.1 ho with rfl | ho
            · exact .inr ⟨_, List.mem_append_right _ List.mem_cons_self, heq⟩
            · exact .inl ⟨o, ho, heq⟩
          · exact .inr ⟨k, List.mem_append_left _ hk, heq⟩

theorem Continues.attained (h : a.Continues b) (ha : a.Attained) : b.Attained := by
  induction h with
  | refl => exact ha
  | step step _ _ ih => exact ih.step step

theorem Continues.has (h : a.Continues b) (ha : a.Attained) (hregion : a.Has tryStart stop) :
    b.Has tryStart stop := by
  induction h with
  | refl => exact hregion
  | step step h hstep ih => exact ih.perform (h.attained ha).allotted hstep

/-- Whatever was done before, a step that is refused leaves the method as it was, unless a label that is
bound already is bound anew; and a region that is opened is in the table of the finished method, unless it
is lost when it is closed. -/
theorem Attained.refuses (h : a.Attained) :
    (∀ step f b, Fails step.run a f b ↔ a.Refuses step f ∧ b = a ∨ a.Breaks step f b) ∧
    ∀ stop b c m, Yields Assembly.beginTry a stop b → b.Continues c → c.finish = .ok m →
      ∃ k ∈ m.body.handlers, k.tryStart = a.nextLabel ∧ k.handlerEnd = stop := by
  refine ⟨fun step f b => h.allotted.fails_iff, fun stop b c m hbegin hcontinues hfinish => ?_⟩
  have hattained : b.Attained := by
    have hperform : a.perform .beginTry = b := by
      unfold Assembler.perform
      rw [AssemblyStep.run, discard_apply, hbegin]
    exact hperform ▸ h.step .beginTry
  have hhas : b.Has a.nextLabel stop := by
    obtain ⟨rfl, rfl⟩ := hbegin.unique (Assembly.beginTry_apply h.allotted)
    exact .inl ⟨_, List.mem_cons_self, rfl, rfl⟩
  obtain ⟨hregions, rfl, -⟩ := bound_of_finish hfinish
  rcases hcontinues.has hattained hhas with ⟨o, ho, -⟩ | hclosed
  · rw [hregions] at ho
    cases ho
  · exact hclosed

/-- A region of a method whose handler is begun, after a label was bound in the protected body. -/
def handling (label : Label) : Assembler :=
  (((begin "f" .int32 ⟨true, true⟩).perform .beginTry).perform (.mark label)).perform .beginFinally

theorem attained_handling (label : Label) : (handling label).Attained :=
  (((Attained.begin "f" .int32 ⟨true, true⟩).step .beginTry).step (.mark label)).step .beginFinally

/-- To bind a label that was not handed out is refused; the region of the method is still open then and in
the table once it is closed. -/
theorem refuses_unknown : Fails (Assembly.mark 7) (handling 7) (.unknownLabel 7) (handling 7) ∧
    ∃ m, ((handling 7).perform .endTry).finish = .ok m ∧
      ∃ k ∈ m.body.handlers, k.tryStart = 0 ∧ k.handlerEnd = 1 := by
  have hbegin : (begin "f" .int32 ⟨true, true⟩).Attained := .begin "f" .int32 ⟨true, true⟩
  have hcontinues : ((begin "f" .int32 ⟨true, true⟩).perform .beginTry).Continues
      ((handling 7).perform .endTry) := by
    refine ((Continues.refl.step (.mark 7) nofun).step .beginFinally nofun).step .endTry ?_
    intro f c _ hbreaks
    cases hbreaks with
    | lost hregions _ _ hbound =>
      have hfree : ∀ o ∈ (handling 7).regions, ¬ (handling 7).method.body.labels.isBound o.stop := by
        decide
      refine hfree _ ?_ hbound
      show _ ∈ (handling 7).regions
      exact hregions ▸ List.mem_cons_self
  refine ⟨?_, _, rfl, ?_⟩
  · exact ((attained_handling 7).refuses.1 (.mark 7) (.unknownLabel 7) _).2 (.inl ⟨.unknownLabel (by decide), rfl⟩)
  · exact hbegin.refuses.2 1 _ _ _ rfl hcontinues rfl

/-- Where the label behind a region is bound in its body, closing the region is refused, and then it is
neither open any more nor in the table of the finished method. -/
theorem loses_region : (handling 1).Attained ∧ (handling 1).regions = [⟨0, some 2, 1⟩] ∧
    (Assembly.endTry (handling 1)).1 = .error (.labelMarkedTwice 1 "f") ∧
    ((handling 1).perform .endTry).regions = [] ∧
    ((handling 1).perform .endTry).finish.toOption.map (·.body.handlers) = some [] :=
  ⟨attained_handling 1, rfl, rfl, rfl, rfl⟩

end Assembler

end ManagedC
