import ManagedC.Proofs.Scoping.Outside
import ManagedC.Proofs.Scoping.Slots

/-!
# What names refer to

A name refers to the latest declaration of it whose block has not ended. As every declaration goes to the
innermost open block, this is the declaration in the innermost block around the name that has one. Names
are looked up in the order in which code is emitted, in which the update of a loop comes behind its body.
Main statements: `Scope.lexical?` finds this declaration in what has happened to a scope, and every body
that is emitted uses what it finds, fails where it finds nothing and leaves everything outside the innermost
block alone (`Body.compile_lexical`). In the order of the source the first part does not hold
(`Body.updating_strays`).
-/

namespace ManagedC

open Yields

namespace NameEvent

/-- How many blocks that were open before an event have ended, if so many have that were open behind it. -/
def endedBefore : NameEvent → Nat → Nat
  | .opened, count => count - 1
  | .closed, count => count + 1
  | .declared _, count | .used _, count => count

/-- How many blocks that were open before have ended. -/
def ended (events : List NameEvent) : Nat := events.foldr endedBefore 0

/-- How many blocks are open after something happened, if no more have ended than were open. -/
def depth? : Nat → List NameEvent → Option Nat
  | depth, [] => some depth
  | depth, .opened :: later => depth? (depth + 1) later
  | 0, .closed :: _ => none
  | depth + 1, .closed :: later => depth? depth later
  | depth, .declared _ :: later | depth, .used _ :: later => depth? depth later

variable {ε : Type} (view : ε → Option NameEvent) (name : String)

/-- The latest declaration of a name whose block has not ended. -/
def latest? : List ε → Option ε
  | [] => none
  | e :: later => latest? later <|>
      if view e = some (.declared name) ∧ ended (later.filterMap view) = 0 then some e else none

theorem ended_le {events : List NameEvent} {depth rest : Nat} (h : depth? depth events = some rest) :
    ended events ≤ depth := by
  induction events generalizing depth with
  | nil => exact Nat.zero_le _
  | cons e later ih =>
    cases e with
    | opened => exact Nat.sub_le_of_le_add (ih h)
    | closed =>
      cases depth with
      | zero => cases h
      | succ depth => exact Nat.succ_le_succ (ih h)
    | declared | used => exact ih (by simpa only [depth?] using h)

theorem depth?_append (events events' : List NameEvent) (depth : Nat) :
    depth? depth (events ++ events') = (depth? depth events).bind fun rest => depth? rest events' := by
  induction events generalizing depth with
  | nil => rfl
  | cons e later ih =>
    rw [List.cons_append]
    cases e with
    | opened => exact ih _
    | closed =>
      cases depth with
      | zero => rfl
      | succ depth => exact ih _
    | declared | used => simpa only [depth?] using ih depth

theorem view_of_latest? {events : List ε} {e : ε} (h : latest? view name events = some e) :
    view e = some (.declared name) := by
  induction events with
  | nil => cases h
  | cons e' later ih =>
    rw [latest?, Option.orElse_eq_orElse, Option.orElse_eq_or, Option.or_eq_some_iff] at h
    rcases h with h | ⟨-, h⟩
    · exact ih h
    · split at h
      · rename_i hcond
        cases h
        exact hcond.1
      · cases h

/-- A declaration is found in what the source says exactly if it is found in what has happened. -/
theorem latest?_filterMap (events : List ε) :
    latest? some name (events.filterMap view) = (latest? view name events).bind view := by
  induction events with
  | nil => rfl
  | cons e later ih =>
    have hlater : (latest? view name (e :: later)).bind view = ((latest? view name later).bind view <|>
        if view e = some (.declared name) ∧ ended (later.filterMap view) = 0 then view e else none) := by
      rw [latest?]
      cases hlatest : latest? view name later with
      | some e' => simp [view_of_latest? view name hlatest]
      | none => split <;> simp
    rw [hlater, ← ih]
    cases he : view e with
    | none => simp [he]
    | some e' => rw [List.filterMap_cons_some he, latest?, List.filterMap_some]

end NameEvent

/-- The variable that is declared. -/
def ScopeEvent.variable? : ScopeEvent → Option Variable
  | .declared _ v _ => some v
  | _ => none

theorem ScopeEvent.exists_variable? {e : ScopeEvent} {name : String}
    (h : e.name? = some (.declared name)) : ∃ v, e.variable? = some v := by
  cases e <;> first | exact ⟨_, rfl⟩ | cases h

namespace Scope

/-- What a name refers to once something has happened to a scope: the variable of the latest declaration
whose block has not ended, else what it referred to before. -/
def lexical? (s : Scope) (events : List ScopeEvent) (name : String) : Option Variable :=
  (NameEvent.latest? ScopeEvent.name? name events).bind ScopeEvent.variable? <|> s.findVariable? name

/-- The scope without some of its innermost blocks. -/
def leave (s : Scope) (count : Nat) : Scope := { s with blocks := s.blocks.drop count }

variable {s t u : Scope}

theorem findVariable?_leave (hblocks : t.blocks = s.blocks) (hparameters : t.parameters = s.parameters)
    (count : Nat) (name : String) :
    (t.leave count).findVariable? name = (s.leave count).findVariable? name := by
  unfold leave Scope.findVariable?
  rw [hblocks, hparameters]

/-- What a name refers to after something has happened, in whatever blocks are left. -/
theorem Proceeds.findVariable? {e : ScopeEvent} (h : s.Proceeds (some e) t) (he : e.parameter? = none)
    (count : Nat) (name : String) : (t.leave count).findVariable? name =
      ((if e.name? = some (.declared name) ∧ count = 0 then some e else none).bind
        ScopeEvent.variable? <|>
          (s.leave ((e.name?.map fun x => x.endedBefore count).getD count)).findVariable? name) := by
  cases h with
  | openBlock =>
    cases count with
    | zero => rw [findVariable?_eq, findVariable?_eq]; rfl
    | succ count => rfl
  | closeBlock =>
    have hclosed : s.closeBlock.leave count = s.leave (count + 1) := by
      unfold Scope.closeBlock leave
      rw [List.drop_tail]
    rw [hclosed]
    rfl
  | parameter => cases he
  | @declare other type target hvoid htarget =>
    cases count with
    | zero =>
      have hnames : ((s.declareVariable other type target).leave 0).names =
          (other, ⟨.local s.nextSlot, type⟩) :: (s.leave 0).names :=
        names_declareVariable s other type target
      rw [findVariable?_eq, hnames, List.lookup_cons]
      cases hother : name == other with
      | true =>
        obtain rfl := beq_iff_eq.1 hother
        simp [ScopeEvent.name?, ScopeEvent.variable?]
      | false =>
        have hne : other ≠ name := fun heq => by simp [heq] at hother
        simp [ScopeEvent.name?, hne, NameEvent.endedBefore, findVariable?_eq]
    | succ count =>
      have hleft : (s.declareVariable other type target).leave (count + 1) =
          ({ s with assembler := s.assembler.pushLocal ⟨some other, target, false⟩ }).leave (count + 1) := by
        unfold declareVariable leave
        simp
      rw [hleft]
      simp [ScopeEvent.name?, NameEvent.endedBefore]
      rfl
  | temporary | load | store => rfl

/-- What a name refers to once things have happened is the latest declaration whose block has not ended, or
what it referred to before in the blocks that have not ended. -/
theorem History.findVariable? {events : List ScopeEvent} (h : s.History events t)
    (hplain : ∀ e ∈ events, e.parameter? = none) (name : String) : t.findVariable? name =
      ((NameEvent.latest? ScopeEvent.name? name events).bind ScopeEvent.variable? <|>
        (s.leave (NameEvent.ended (events.filterMap ScopeEvent.name?))).findVariable? name) := by
  induction h with
  | nil => rfl
  | @cons s u t e events hstep _ ih =>
    cases e with
    | none =>
      have hsame : ∀ count, (u.leave count).findVariable? name = (s.leave count).findVariable? name := by
        cases hstep with
        | binds hb => exact fun count => findVariable?_leave (by rw [hb.emits.eq]) (by rw [hb.emits.eq]) count name
        | _ => exact fun count => findVariable?_leave rfl rfl count name
      rw [ih hplain, hsame]
      rfl
    | some e =>
      have he := hplain e (List.mem_append_left _ (by simp))
      rw [ih fun e' he' => hplain e' (List.mem_append_right _ he'), hstep.findVariable? he]
      rw [Option.toList_some, List.singleton_append, NameEvent.latest?]
      have hended : NameEvent.ended ((e :: events).filterMap ScopeEvent.name?) =
          (e.name?.map fun x => x.endedBefore (NameEvent.ended (events.filterMap ScopeEvent.name?))).getD
            (NameEvent.ended (events.filterMap ScopeEvent.name?)) := by
        cases hname : e.name? with
        | none => rw [List.filterMap_cons_none hname]; rfl
        | some x => rw [List.filterMap_cons_some hname]; rfl
      rw [hended]
      cases hlatest : NameEvent.latest? ScopeEvent.name? name events with
      | none => rfl
      | some e' =>
        obtain ⟨v, hv⟩ := ScopeEvent.exists_variable? (NameEvent.view_of_latest? _ _ hlatest)
        simp [hv]

/-- What is used for a name in a history that ends no block which was open before is what the name refers
to. -/
theorem History.lexical {before after : List ScopeEvent} {name : String} {v : Variable}
    (h : s.History (before ++ .used name v :: after) t)
    (hplain : ∀ e ∈ before ++ .used name v :: after, e.parameter? = none)
    (hended : NameEvent.ended (before.filterMap ScopeEvent.name?) = 0) :
    s.lexical? before name = some v := by
  obtain ⟨u, w, hbefore, hused, _⟩ := h.split
  have hfound := hbefore.findVariable? (fun e he => hplain e (List.mem_append_left _ he)) name
  rw [hended, hused.found] at hfound
  exact hfound.symm

end Scope

/-! ## Bodies -/

namespace Expression

theorem depth?_events (e : Expression) (depth : Nat) : NameEvent.depth? depth e.events = some depth := by
  unfold events
  induction e.names with
  | nil => rfl
  | cons name names ih => simpa only [List.map_cons, NameEvent.depth?] using ih

end Expression

namespace NameEvent

theorem depth?_ofOptional (e : Option Expression) (depth : Nat) :
    depth? depth (ofOptional e) = some depth := by
  cases e with
  | none => rfl
  | some e => exact e.depth?_events depth

theorem depth?_ofLoop (updateLast : Bool) {start body : List NameEvent}
    (condition update : Option Expression) (hstart : ∀ depth, depth? depth start = some depth)
    (hbody : ∀ depth, depth? depth body = some depth) (depth : Nat) :
    depth? depth (ofLoop updateLast start condition update body) = some depth := by
  unfold ofLoop
  split <;> simp [depth?_append, hstart, hbody, depth?_ofOptional]

/-- A block that is begun and ended leaves as many blocks open. -/
theorem depth?_block {events : List NameEvent} (h : ∀ depth, depth? depth events = some depth)
    (depth : Nat) : depth? depth (.opened :: events ++ [.closed]) = some depth := by
  rw [List.cons_append, depth?, depth?_append, h]
  rfl

end NameEvent

theorem LocalDeclaration.depth?_events (d : LocalDeclaration) (depth : Nat) :
    NameEvent.depth? depth d.events = some depth := by
  unfold events
  split
  · rfl
  · rename_i e _
    rw [NameEvent.depth?_append, e.depth?_events]
    rfl

namespace Body

variable (updateLast : Bool)

mutual

/-- A body ends the blocks that it begins and no others. -/
theorem depth?_events : ∀ (b : Body) (depth : Nat),
    NameEvent.depth? depth (b.events updateLast) = some depth
  | .block parts, depth => by
    rw [events]
    exact NameEvent.depth?_block (depth?_allEvents parts) depth
  | .expression e, depth => by
    rw [events]
    exact e.depth?_events depth
  | .declare locals, depth => by
    rw [events]
    induction locals with
    | nil => rfl
    | cons d ds ih =>
      rw [List.flatMap_cons, NameEvent.depth?_append, d.depth?_events]
      exact ih
  | .conditional condition thenBranch none, depth => by
    rw [events, NameEvent.depth?_append, condition.depth?_events]
    exact thenBranch.depth?_events depth
  | .conditional condition thenBranch (some elseBranch), depth => by
    rw [events, NameEvent.depth?_append, NameEvent.depth?_append, condition.depth?_events,
      Option.bind_some, thenBranch.depth?_events]
    exact elseBranch.depth?_events depth
  | .whileLoop condition body, depth => by
    rw [events, NameEvent.depth?_append, condition.depth?_events]
    exact body.depth?_events depth
  | .doWhileLoop body condition, depth => by
    rw [events, NameEvent.depth?_append, body.depth?_events]
    exact condition.depth?_events depth
  | .forLoop none condition update body, depth => by
    rw [events]
    exact NameEvent.depth?_block
      (NameEvent.depth?_ofLoop _ _ _ (fun _ => rfl) body.depth?_events) depth
  | .forLoop (some start) condition update body, depth => by
    rw [events]
    exact NameEvent.depth?_block
      (NameEvent.depth?_ofLoop _ _ _ start.depth?_events body.depth?_events) depth
  | .ret value _, depth => by
    rw [events]
    exact NameEvent.depth?_ofOptional value depth
  | .exitLoop _, depth | .nextRound _, depth | .empty, depth => by
    rw [events]
    rfl

theorem depth?_allEvents : ∀ (bs : List Body) (depth : Nat),
    NameEvent.depth? depth (allEvents updateLast bs) = some depth
  | [], depth => rfl
  | b :: bs, depth => by
    rw [allEvents, NameEvent.depth?_append, b.depth?_events]
    exact depth?_allEvents bs depth

end

/-- Nothing that happens in a body ends a block that was open before. -/
theorem ended_before {b : Body} {before after : List NameEvent} (h : b.events updateLast = before ++ after) :
    NameEvent.ended before = 0 := by
  have hdepth := b.depth?_events updateLast 0
  rw [h, NameEvent.depth?_append] at hdepth
  obtain ⟨rest, hrest, _⟩ := Option.bind_eq_some_iff.1 hdepth
  exact Nat.le_zero.1 (NameEvent.ended_le hrest)

/-- No parameter is bound in a history of a body. -/
theorem plain_of_history {b : Body} {s t : Scope} {events : List ScopeEvent} (hs : s.blocks ≠ [])
    (h : Yields b.compile s () t) (hevents : s.History events t) : ∀ e ∈ events, e.parameter? = none := by
  have hkept := b.keeps_compile s hs
  rw [show b.compile s = _ from h] at hkept
  obtain ⟨added, hadded, hentries⟩ := Scope.numbers_parameters.history hevents
  have hnone : added = [] := by
    rw [hkept.entries] at hadded
    exact List.self_eq_append_right.1 hadded
  rw [hnone] at hentries
  exact List.filterMap_eq_nil_iff.1 hentries

/-- The code of a body that can be emitted has a history that tells what the body says, and what it uses for
a name is the latest declaration of it whose block has not ended, else what the name referred to before. -/
theorem history_compile {b : Body} {s t : Scope} (hs : s.blocks ≠ []) (h : Yields b.compile s () t) :
    ∃ events, s.History events t ∧ events.filterMap ScopeEvent.name? = b.events true ∧
      ∀ before name v after, events = before ++ .used name v :: after →
        s.lexical? before name = some v := by
  obtain ⟨events, hevents, hnames⟩ := (b.code_compile h).tells
  rw [allEvents_singleton] at hnames
  refine ⟨events, hevents, hnames, ?_⟩
  rintro before name v after rfl
  refine hevents.lexical (plain_of_history hs h hevents) ?_
  rw [List.filterMap_append] at hnames
  exact ended_before true hnames.symm

/-- A body with a name that refers to nothing cannot be emitted. -/
theorem fails_compile {b : Body} {s : Scope} (hs : s.blocks ≠ []) {before after : List NameEvent}
    {name : String} (hb : b.events true = before ++ .used name :: after)
    (hlocal : NameEvent.latest? some name before = none) (hbefore : s.findVariable? name = none) :
    ∃ e t, Fails b.compile s e t := by
  rcases hresult : b.compile s with ⟨e | ⟨⟩, t⟩
  · exact ⟨e, t, hresult⟩
  · obtain ⟨events, -, hnames, hlexical⟩ := history_compile hs hresult
    rw [hb] at hnames
    obtain ⟨l, l', hevents, hl, hl'⟩ := List.filterMap_eq_append_iff.1 hnames
    obtain ⟨m, e, after', rfl, hm, he, -⟩ := List.filterMap_eq_cons_iff.1 hl'
    obtain ⟨v, rfl⟩ : ∃ v, e = .used name v := by
      cases e <;> cases he
      exact ⟨_, rfl⟩
    have hfound := hlexical (l ++ m) name v after' (by rw [hevents, List.append_assoc])
    have hnames : (l ++ m).filterMap ScopeEvent.name? = before := by
      rw [List.filterMap_append, hl, List.filterMap_eq_nil_iff.2 hm, List.append_nil]
    have hnone : NameEvent.latest? ScopeEvent.name? name (l ++ m) = none := by
      rw [← hnames, NameEvent.latest?_filterMap] at hlocal
      cases hlatest : NameEvent.latest? ScopeEvent.name? name (l ++ m) with
      | none => rfl
      | some e =>
        rw [hlatest, Option.bind_some, NameEvent.view_of_latest? _ _ hlatest] at hlocal
        cases hlocal
    rw [Scope.lexical?, hnone, hbefore] at hfound
    cases hfound

/-- Whether the code of a body can be emitted or not, everything outside the innermost block ends as it began,
the innermost block has only got more names, and the method has only got more local variables and
instructions. If it can be emitted, what it reads or assigns for a name is the variable of the latest
declaration before it whose block has not ended, else what the name referred to before, in the order of the
source but for the update of a loop, which comes behind its body. If a name refers to nothing, it cannot be
emitted. -/
theorem compile_lexical (b : Body) (s : Scope) (hs : s.blocks ≠ []) :
    s.Keeps (b.compile s).2 ∧
    (∀ t, Yields b.compile s () t → ∃ events, s.History events t ∧
      events.filterMap ScopeEvent.name? = b.events true ∧
      ∀ before name v after, events = before ++ .used name v :: after →
        s.lexical? before name = some v) ∧
    ∀ before name after, b.events true = before ++ .used name :: after →
      NameEvent.latest? some name before = none → s.findVariable? name = none →
        ∃ e t, Fails b.compile s e t :=
  ⟨b.keeps_compile s hs, fun _ => history_compile hs, fun _ _ _ => fails_compile hs⟩

end Body

/-- A scope with an open block in which a variable `x` is declared. -/
def Scope.sample : Scope :=
  (Scope.begin ⟨"sample", .int, some [], false, ⟨"sample", .int32, []⟩⟩ {}).openBlock.declareVariable "x"
    .int .int32

namespace Body

/-- The body `{ int x = x; x = x; }`. -/
def nested : Body :=
  .block [.declare [⟨"x", .int, some (Construct.name "x"), .unknown⟩],
    .expression (Construct.assign none (Construct.name "x") (Construct.name "x"))]

/-- In that body the initial value is read from the outer variable, and everything behind it concerns the
inner one. A name that is declared nowhere has no code. -/
theorem nested_lexical : Scope.sample.blocks ≠ [] ∧
    (∃ t events, Yields nested.compile Scope.sample () t ∧ Scope.sample.Keeps t ∧
      t.assembler.method.body.instructions.toList.filterMap Instruction.accessed? =
        [.local 0, .local 1, .local 1, .local 1] ∧
      Scope.sample.History events t ∧ events.filterMap ScopeEvent.name? = nested.events true ∧
      ∀ before name v after, events = before ++ .used name v :: after →
        Scope.sample.lexical? before name = some v) ∧
    ∃ e t, Fails (Body.expression (Construct.name "y")).compile Scope.sample e t := by
  have hblocks : Scope.sample.blocks ≠ [] := List.cons_ne_nil _ _
  have hcompiles : (nested.compile Scope.sample).1.toOption = some () := by decide +kernel
  have hslots : (nested.compile Scope.sample).2.assembler.method.body.instructions.toList.filterMap
      Instruction.accessed? = [.local 0, .local 1, .local 1, .local 1] := by decide +kernel
  have hyields := Yields.of_toOption hcompiles
  obtain ⟨hkept, hlexical, -⟩ := compile_lexical nested Scope.sample hblocks
  obtain ⟨-, -, hfails⟩ := compile_lexical (.expression (Construct.name "y")) Scope.sample hblocks
  obtain ⟨events, hevents, hnames, hfound⟩ := hlexical _ hyields
  exact ⟨hblocks, ⟨_, events, hyields, hkept, hslots, hevents, hnames, hfound⟩,
    hfails [] "y" [] rfl rfl rfl⟩

/-! ## A loop whose body declares -/

/-- The body `for (int i = 0; i < 1; i = i + (x = 1)) int x;`. -/
def updating : Body :=
  .forLoop (some (.declare [⟨"i", .int, some (Construct.int 0), .unknown⟩]))
    (some (Construct.binary (.comparison .lt) (Construct.name "i") (Construct.int 1)))
    (some (Construct.assign none (Construct.name "i")
      (Construct.binary (.arithmetic .add) (Construct.name "i")
        (Construct.assign none (Construct.name "x") (Construct.int 1)))))
    (.declare [⟨"x", .int, none, .unknown⟩])

/-- In the source of that body no declaration of `x` comes before the assignment to it, but no instruction
of its code concerns the variable `x` of the block around it. -/
theorem updating_strays : ∃ t before after, Scope.sample.blocks ≠ [] ∧
    Yields updating.compile Scope.sample () t ∧
    updating.events false = before ++ .used "x" :: after ∧
    NameEvent.latest? some "x" before = none ∧ .used "x" ∉ before ++ after ∧
    Scope.sample.findVariable? "x" = some ⟨.local 0, .int⟩ ∧
    ∀ i ∈ t.assembler.method.body.instructions, i.accessed? ≠ some (.local 0) := by
  have hcompiles : (updating.compile Scope.sample).1.toOption = some () := by decide +kernel
  have hslots : ∀ i ∈ (updating.compile Scope.sample).2.assembler.method.body.instructions,
      i.accessed? ≠ some (.local 0) := by decide +kernel
  exact ⟨_, [.opened, .declared "i", .used "i", .used "i", .used "i"], [.used "i", .declared "x", .closed],
    List.cons_ne_nil _ _, Yields.of_toOption hcompiles, by decide, by decide, by decide, by decide, hslots⟩

end Body

end ManagedC
