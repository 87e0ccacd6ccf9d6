import ManagedC.Proofs.Emit.Labels
import ManagedC.Proofs.Emit.Parameters
import ManagedC.Proofs.Emit.StarterCode
import ManagedC.Proofs.Program.Registration

/-!
# The compiler does not fail because of itself

Functions are refused for what is written in them, and never because the compiler makes a mistake of its
own, unless a logical operator is the operator of a compound assignment. The statement that a function has
as its body has the same compound assignments as what is compiled (`Statement.compounds_toBody`); the
labels of the code are bound (`FunctionUnit.finish_emit`); and the types of an entry function that asks for
a starter are those a starter can deal with (`FunctionUnit.starter_eq_bridge`). Main statement:
`FunctionDefinition.compile_faultless`.
-/

namespace ManagedC

namespace Except

variable {α β : Type}

/-- The result is not a mistake of the compiler. -/
def Blameless (x : Except CompileError α) : Prop := ∀ e, x = .error e → e.IsAboutSource

/-- What comes behind a check that was passed. -/
theorem of_guard {c : Prop} [Decidable c] {e : CompileError} {rest : Except CompileError β} {b : β}
    (h : (if c then (MonadExcept.throw e : Except CompileError α) >>= fun _ => rest else rest) = .ok b) :
    rest = .ok b := by
  split at h
  · cases h
  · exact h

namespace Blameless

theorem pure (a : α) : Blameless (Pure.pure a) := nofun

theorem throw {e : CompileError} (h : e.IsAboutSource) :
    Blameless (MonadExcept.throw e : Except CompileError α) := by
  rintro _ ⟨⟩
  exact h

theorem bind {x : Except CompileError α} {f : α → Except CompileError β} (hx : Blameless x)
    (hf : ∀ a, Blameless (f a)) : Blameless (x >>= f) := by
  intro e h
  rcases bind_eq_error.1 h with h | ⟨a, -, h⟩
  · exact hx e h
  · exact hf a e h

/-- Something is done first under a condition. -/
theorem optionally {c : Prop} [Decidable c] {x : Except CompileError α} {rest : Except CompileError β}
    (hx : Blameless x) (hrest : Blameless rest) :
    Blameless (if c then x >>= fun _ => rest else rest) := by
  split
  · exact hx.bind fun _ => hrest
  · exact hrest

theorem mapError {ε : Type} {f : ε → CompileError} (h : ∀ e, (f e).IsAboutSource) (x : Except ε α) :
    Blameless (x.mapError f) := by
  cases x with
  | ok a => exact nofun
  | error e =>
    rintro _ ⟨⟩
    exact h e

theorem mapM {f : α → Except CompileError β} (h : ∀ a, Blameless (f a)) :
    ∀ as : List α, Blameless (as.mapM f)
  | [] => .pure _
  | a :: as => by
    rw [List.mapM_cons]
    exact .bind (h a) fun _ => .bind (mapM h as) fun _ => .pure _

end Blameless

end Except

namespace Statement

open CompileError

theorem blameless_locals (function : String) (d : Declaration) : Except.Blameless (d.locals function) := by
  refine .mapM (fun declarator => ?_) _
  have hread : Except.Blameless ((declarator.declarator.resolve d.specifiers).mapError .declaration) :=
    .mapError isAboutSource_declaration _
  refine .bind hread fun declared => ?_
  refine .optionally (.throw (isAboutSource_refused _ _))
    (.optionally (.throw (isAboutSource_refused _ _)) ?_)
  split
  · exact .throw (isAboutSource_misused _ _)
  · exact .pure _

mutual

/-- A statement that is not the part of a body is refused. -/
theorem blameless_toBody (function : String) : ∀ s : Statement,
    Except.Blameless (s.toBody function)
  | .expression _ e => by
    unfold toBody
    exact .pure _
  | .compound _ statements => by
    unfold toBody
    exact .bind (blameless_listToBody function statements) fun _ => .pure _
  | .declaration _ d => by
    unfold toBody
    exact .bind (blameless_locals function d) fun _ => .pure _
  | .conditional _ condition thenBranch none => by
    unfold toBody
    exact .bind (blameless_toBody function thenBranch) fun _ => .pure _
  | .conditional _ condition thenBranch (some elseBranch) => by
    unfold toBody
    exact .bind (blameless_toBody function thenBranch) fun _ =>
      .bind (blameless_toBody function elseBranch) fun _ => .pure _
  | .whileLoop _ condition body => by
    unfold toBody
    exact .bind (blameless_toBody function body) fun _ => .pure _
  | .doWhileLoop _ body condition => by
    unfold toBody
    exact .bind (blameless_toBody function body) fun _ => .pure _
  | .forLoop _ none condition update body => by
    unfold toBody
    exact .bind (blameless_toBody function body) fun _ => .pure _
  | .forLoop _ (some start) condition update body => by
    unfold toBody
    exact .bind (blameless_toBody function start) fun _ =>
      .bind (blameless_toBody function body) fun _ => .pure _
  | .switch span _ _ | .labeled span _ _ | .goto span _ => by
    unfold toBody
    exact .throw (isAboutSource_refused _ _)
  | .exitLoop span | .nextRound span | .ret span value | .empty span => by
    unfold toBody
    exact .pure _

theorem blameless_listToBody (function : String) : ∀ ss : List Statement,
    Except.Blameless (listToBody function ss)
  | [] => by
    unfold listToBody
    exact .pure _
  | s :: ss => by
    unfold listToBody
    exact .bind (blameless_toBody function s) fun _ =>
      .bind (blameless_listToBody function ss) fun _ => .pure _

end

mutual

/-- The operators of the compound assignments in a statement. -/
def compounds : Statement → List BinaryOp
  | .expression _ e => e.compounds
  | .compound _ statements => allCompounds statements
  | .declaration _ d => d.declarators.flatMap fun d => Expression.compounds? d.initializer
  | .conditional _ condition thenBranch none => condition.compounds ++ thenBranch.compounds
  | .conditional _ condition thenBranch (some elseBranch) =>
    condition.compounds ++ thenBranch.compounds ++ elseBranch.compounds
  | .whileLoop _ condition body => condition.compounds ++ body.compounds
  | .doWhileLoop _ body condition => body.compounds ++ condition.compounds
  | .forLoop _ none condition update body =>
    Expression.compounds? condition ++ Expression.compounds? update ++ body.compounds
  | .forLoop _ (some start) condition update body =>
    start.compounds ++ Expression.compounds? condition ++ Expression.compounds? update ++ body.compounds
  | .switch _ e body => e.compounds ++ body.compounds
  | .labeled _ _ statement => statement.compounds
  | .goto _ _ => []
  | .exitLoop _ => []
  | .nextRound _ => []
  | .ret _ value => Expression.compounds? value
  | .empty _ => []

/-- The operators of the compound assignments in several statements. -/
def allCompounds : List Statement → List BinaryOp
  | [] => []
  | s :: ss => s.compounds ++ allCompounds ss

end

theorem initializer_localOf {function : String} {specifiers : List DeclarationSpecifier}
    {d : InitDeclarator} {l : LocalDeclaration}
    (h : Declaration.localOf function specifiers d = .ok l) : l.initializer = d.initializer := by
  unfold Declaration.localOf at h
  obtain ⟨declared, -, h⟩ := Except.bind_eq_ok.1 h
  have h := Except.of_guard (Except.of_guard h)
  split at h
  · cases h
  · cases h
    rfl

theorem compounds_locals {function : String} {specifiers : List DeclarationSpecifier} :
    ∀ {ds : List InitDeclarator} {locals : List LocalDeclaration},
      ds.mapM (Declaration.localOf function specifiers) = .ok locals →
      locals.flatMap (fun d => Expression.compounds? d.initializer) =
        ds.flatMap fun d => Expression.compounds? d.initializer
  | [], locals, h => by
    cases h
    rfl
  | d :: ds, locals, h => by
    rw [List.mapM_cons] at h
    obtain ⟨l, hl, h⟩ := Except.bind_eq_ok.1 h
    obtain ⟨ls, hls, h⟩ := Except.bind_eq_ok.1 h
    obtain rfl := Except.pure_eq_ok.1 h
    rw [List.flatMap_cons, List.flatMap_cons, compounds_locals hls, initializer_localOf hl]

mutual

/-- The body of a function has the compound assignments of the statement that it comes from. -/
theorem compounds_toBody {function : String} : ∀ {s : Statement} {b : Body},
    s.toBody function = .ok b → b.compounds = s.compounds
  | .expression _ e, b, h => by
    unfold toBody at h
    obtain rfl := Except.pure_eq_ok.1 h
    rfl
  | .compound _ statements, b, h => by
    unfold toBody at h
    obtain ⟨parts, hparts, h⟩ := Except.bind_eq_ok.1 h
    obtain rfl := Except.pure_eq_ok.1 h
    rw [Body.compounds, compounds, compounds_listToBody hparts]
  | .declaration _ d, b, h => by
    unfold toBody at h
    obtain ⟨locals, hlocals, h⟩ := Except.bind_eq_ok.1 h
    obtain rfl := Except.pure_eq_ok.1 h
    rw [Body.compounds, compounds, compounds_locals hlocals]
  | .conditional _ condition thenBranch none, b, h => by
    unfold toBody at h
    obtain ⟨first, hfirst, h⟩ := Except.bind_eq_ok.1 h
    obtain rfl := Except.pure_eq_ok.1 h
    rw [Body.compounds, compounds, compounds_toBody hfirst]
  | .conditional _ condition thenBranch (some elseBranch), b, h => by
    unfold toBody at h
    obtain ⟨first, hfirst, h⟩ := Except.bind_eq_ok.1 h
    obtain ⟨second, hsecond, h⟩ := Except.bind_eq_ok.1 h
    obtain rfl := Except.pure_eq_ok.1 h
    rw [Body.compounds, compounds, compounds_toBody hfirst, compounds_toBody hsecond]
  | .whileLoop _ condition body, b, h => by
    unfold toBody at h
    obtain ⟨inner, hinner, h⟩ := Except.bind_eq_ok.1 h
    obtain rfl := Except.pure_eq_ok.1 h
    rw [Body.compounds, compounds, compounds_toBody hinner]
  | .doWhileLoop _ body condition, b, h => by
    unfold toBody at h
    obtain ⟨inner, hinner, h⟩ := Except.bind_eq_ok.1 h
    obtain rfl := Except.pure_eq_ok.1 h
    rw [Body.compounds, compounds, compounds_toBody hinner]
  | .forLoop _ none condition update body, b, h => by
    unfold toBody at h
    obtain ⟨inner, hinner, h⟩ := Except.bind_eq_ok.1 h
    obtain rfl := Except.pure_eq_ok.1 h
    rw [Body.compounds, compounds, compounds_toBody hinner]
  | .forLoop _ (some start) condition update body, b, h => by
    unfold toBody at h
    obtain ⟨first, hfirst, h⟩ := Except.bind_eq_ok.1 h
    obtain ⟨inner, hinner, h⟩ := Except.bind_eq_ok.1 h
    obtain rfl := Except.pure_eq_ok.1 h
    rw [Body.compounds, compounds, compounds_toBody hfirst, compounds_toBody hinner]
  | .switch _ _ _, b, h | .labeled _ _ _, b, h | .goto _ _, b, h => by
    unfold toBody at h
    cases h
  | .exitLoop _, b, h | .nextRound _, b, h | .ret _ _, b, h | .empty _, b, h => by
    unfold toBody at h
    obtain rfl := Except.pure_eq_ok.1 h
    rfl

theorem compounds_listToBody {function : String} : ∀ {ss : List Statement} {bs : List Body},
    listToBody function ss = .ok bs → Body.allCompounds bs = allCompounds ss
  | [], bs, h => by
    unfold listToBody at h
    obtain rfl := Except.pure_eq_ok.1 h
    rfl
  | s :: ss, bs, h => by
    unfold listToBody at h
    obtain ⟨b, hb, h⟩ := Except.bind_eq_ok.1 h
    obtain ⟨rest, hrest, h⟩ := Except.bind_eq_ok.1 h
    obtain rfl := Except.pure_eq_ok.1 h
    rw [Body.allCompounds, allCompounds, compounds_toBody hb, compounds_listToBody hrest]

end

end Statement

namespace EntryPoint

/-- Every entry function that the starter can call has a starter. -/
theorem starter_of_isBridgeable {entry : MethodRef} (h : isBridgeable entry = true) :
    starter entry = .ok (bridge entry) := by
  unfold starter
  rw [if_pos h, starterCode_emptyStarter]
  rfl

/-- A starter is asked for where there are the number of the arguments and the arguments to pass on. -/
theorem parameters_of_needsStarter {parameters : Option ParameterInfo}
    (h : needsStarter parameters = .ok true) : ∃ info count vector, parameters = some info ∧
      info.parameters = [count, vector] ∧ count.type = .int ∧
      ∃ target, vector.type.target = .ok target ∧ target.acceptsArguments = true := by
  cases parameters with
  | none => cases h
  | some info =>
    unfold needsStarter at h
    dsimp only at h
    split at h
    · cases h
    · split at h
      · cases h
      · split at h
        · rename_i count vector hparameters
          split at h
          · rename_i hfits
            obtain ⟨hcount, hvector⟩ := Bool.and_eq_true_iff.1 hfits
            refine ⟨info, count, vector, rfl, hparameters, by simpa [CType.isArgumentCount] using hcount, ?_⟩
            unfold CType.isArgumentVector at hvector
            split at hvector
            · rename_i heq
              rw [heq]
              exact ⟨_, rfl, rfl⟩
            · rename_i heq
              rw [heq]
              exact ⟨_, rfl, rfl⟩
            · rename_i heq
              rw [heq]
              exact ⟨_, rfl, rfl⟩
            · cases hvector
          · cases h
        · cases h

end EntryPoint

namespace FunctionUnit

open CompileError

variable {u : FunctionUnit} {p : Program}

/-- Where the code of a function can be emitted, each of its labels is bound, no region is open and the
method is complete. Where it cannot, that is not a mistake of the compiler. -/
theorem finish_emit (signature : FunctionSignature) (functions : FunctionTable)
    (hops : Emit.Excuses IsAboutSource u.body.compounds) :
    match u.emit (.begin signature functions) with
    | (.ok _, s) => s.Tracks 0 [] ∧ s.assembler.finish = .ok s.assembler.method
    | (.error e, _) => e.IsAboutSource := by
  have hepilogue : ∀ i ∈ u.epilogue, i.target? = none := by
    unfold epilogue
    repeat' split
    all_goals simp [Instruction.target?]
  have hemit : Emit.Orderly u.emit :=
    .bind (Emit.orderly_closed.forM fun _ _ => Emit.orderly_closed.discard (.bindParameter _ _ _)) fun _ =>
      .bind (Emit.orderly_closed.compileBody _ hops) fun _ =>
        Emit.orderly_closed.forM fun i hi => .instr (hepilogue i hi)
  have hbegin : (Scope.begin signature functions).Tracks 0 [] :=
    ⟨Nat.le_refl 0, fun l => ⟨nofun, nofun⟩, nofun, List.nodup_nil, nofun, nofun, rfl⟩
  have hend := hemit 0 [] _ hbegin
  rcases hresult : u.emit (.begin signature functions) with ⟨e | a, s⟩
  · rwa [hresult] at hend
  · rw [hresult] at hend
    exact ⟨hend, hend.finish⟩

theorem blameless_targetReturn (u : FunctionUnit) : Except.Blameless u.targetReturn := by
  unfold targetReturn
  split
  · exact .throw (isAboutSource_refused _ _)
  · exact .mapError (fun _ => isAboutSource_refused _ _) _

theorem blameless_checkParameters (u : FunctionUnit) (p : Program) :
    Except.Blameless (u.checkParameters p) := by
  have hfree : Except.Blameless (p.ensureEntryFree u.name u.location) := by
    unfold Program.ensureEntryFree
    split
    · exact .throw (isAboutSource_refused _ _)
    · exact .pure _
  unfold checkParameters
  split
  · exact .bind (.mapError (fun _ => isAboutSource_refused _ _) _) fun _ => .bind hfree fun _ => .pure _
  · split
    · exact .throw (isAboutSource_refused _ _)
    · exact .pure _

theorem blameless_signature (u : FunctionUnit) (returnType : TargetType) :
    Except.Blameless (u.signature returnType) :=
  .bind (.mapM (fun _ => .mapError (fun _ => isAboutSource_refused _ _) _) _) fun _ => .pure _

theorem blameless_method (signature : FunctionSignature) (functions : FunctionTable)
    (hops : Emit.Excuses IsAboutSource u.body.compounds) :
    Except.Blameless (u.method signature functions) := by
  have hemit := finish_emit signature functions hops
  unfold method
  rcases hresult : u.emit (.begin signature functions) with ⟨e | a, s⟩
  · rw [hresult] at hemit
    rintro _ ⟨⟩
    exact hemit
  · rw [hresult] at hemit
    dsimp only
    rw [hemit.2]
    exact nofun

theorem blameless_setEntryPoint (p : Program) (id : Nat) (function : String) (location : Location) :
    Except.Blameless (p.setEntryPoint id function location) := by
  unfold Program.setEntryPoint
  split
  · exact .pure _
  · exact .throw (isAboutSource_refused _ _)
  · exact .throw (isAboutSource_refused _ _)

/-- An entry function whose parameters call for a starter is one that a starter can call. -/
theorem starter_eq_bridge {returnType : TargetType} {signature : FunctionSignature}
    (hreturn : u.targetReturn = .ok returnType) (hneeds : u.checkParameters p = .ok true)
    (hsignature : u.signature returnType = .ok signature) :
    EntryPoint.starter signature.method = .ok (EntryPoint.bridge signature.method) := by
  rcases checkParameters_eq_ok hneeds with ⟨-, hnot⟩ | ⟨hentry, -, hstarter⟩
  · cases hnot
  obtain ⟨info, count, vector, hinfo, hparameters, hcount, target, hvector, haccepts⟩ :=
    EntryPoint.parameters_of_needsStarter hstarter
  have hint : returnType = .int32 := by
    unfold targetReturn at hreturn
    rw [hentry, Bool.true_and] at hreturn
    split at hreturn
    · cases hreturn
    · rename_i hsame
      have htarget := Except.of_toOption (by simpa using hsame : u.returnType.target.toOption = some .int32)
      unfold CType.represent at hreturn
      rw [htarget] at hreturn
      cases hreturn
      rfl
  have hbridgeable : EntryPoint.isBridgeable signature.method = true := by
    have hknown : u.parameterTypes.getD [] = [.int, vector.type] := by
      simp [parameterTypes, hinfo, hparameters, hcount]
    obtain ⟨types, htypes, hmethod⟩ := Except.bind_eq_ok.1 hsignature
    rw [hknown, List.mapM_cons, List.mapM_cons, List.mapM_nil] at htypes
    unfold CType.represent at htypes
    rw [hvector] at htypes
    obtain rfl := Except.pure_eq_ok.1 hmethod
    cases htypes
    unfold EntryPoint.isBridgeable
    simp [PrimitiveType.target, haccepts, hint]
  exact EntryPoint.starter_of_isBridgeable hbridgeable

theorem isAboutSource_of_fails {e : CompileError} {q : Program}
    (hops : Emit.Excuses IsAboutSource u.body.compounds) (h : Fails u.compile p e q) :
    e.IsAboutSource := by
  unfold compile at h
  simp only [Fails.bind_iff, Build.fails_ofExcept, Build.yields_ofExcept, Fails.not_get, Fails.not_modify,
    Yields.get_iff, Yields.modify_iff, false_or] at h
  rcases h with ⟨h, -⟩ | ⟨returnType, _, ⟨hreturn, rfl⟩, _, _, ⟨rfl, rfl⟩, h⟩
  · exact u.blameless_targetReturn e h
  rcases h with ⟨h, -⟩ | ⟨needsStarter, _, ⟨hneeds, rfl⟩, h⟩
  · exact u.blameless_checkParameters _ e h
  rcases h with ⟨h, -⟩ | ⟨signature, _, ⟨hsignature, rfl⟩, _, _, ⟨rfl, rfl⟩, h⟩
  · exact u.blameless_signature returnType e h
  rcases h with ⟨h, -⟩ | ⟨method, _, ⟨-, rfl⟩, h⟩
  · exact blameless_method _ _ hops e h
  rcases h with ⟨h, -⟩ | ⟨starter, _, ⟨-, rfl⟩, _, _, rfl, h⟩
  · cases needsStarter with
    | false => cases h
    | true =>
      rw [if_pos rfl, starter_eq_bridge hreturn hneeds hsignature] at h
      cases h
  split at h
  · cases starter with
    | none =>
      simp only [Fails.bind_iff, Build.fails_ofExcept, Build.yields_ofExcept, Yields.get_iff,
        Fails.not_get, Fails.not_set, false_or, and_false, exists_false, or_false] at h
      obtain ⟨_, _, ⟨rfl, rfl⟩, _, _, ⟨rfl, rfl⟩, herror, -⟩ := h
      exact blameless_setEntryPoint _ _ _ _ e herror
    | some starter =>
      simp only [Fails.bind_iff, Build.fails_ofExcept, Build.yields_ofExcept, Yields.get_iff,
        Yields.modify_iff, Fails.not_get, Fails.not_modify, Fails.not_set, false_or, and_false,
        exists_false, or_false] at h
      obtain ⟨_, _, rfl, _, _, ⟨rfl, rfl⟩, _, _, ⟨rfl, rfl⟩, herror, -⟩ := h
      exact blameless_setEntryPoint _ _ _ _ e herror
  · exact absurd h Fails.not_pure

/-- Reading a definition is not where the compiler makes a mistake. -/
theorem blameless_ofDefinition (d : FunctionDefinition) : Except.Blameless (ofDefinition d) := by
  have hread : Except.Blameless ((d.declarator.resolve d.specifiers).mapError .declaration) :=
    .mapError isAboutSource_declaration _
  refine .bind hread fun declared => ?_
  dsimp only
  split
  · exact .throw (isAboutSource_refused _ _)
  · refine .optionally (.throw (isAboutSource_misused _ _)) ?_
    refine .optionally (.throw (isAboutSource_refused _ _)) ?_
    refine .optionally (.throw (isAboutSource_refused _ _)) ?_
    exact .bind (Statement.blameless_toBody _ _) fun _ => .pure _

end FunctionUnit

/-- No function makes the compiler fail because of itself in which no logical operator is that of a compound
assignment. Whenever its code can be emitted, each of its labels is bound, no region is open and the method
is complete; and if it asks for a starter, it is one that a starter can call. -/
theorem FunctionDefinition.compile_faultless {d : FunctionDefinition}
    (hops : ∀ op, .logical op ∉ d.body.compounds) (p : Program) :
    (∀ fault q, ¬ Fails d.compile p (.internal fault) q) ∧
    ∀ u, FunctionUnit.ofDefinition d = .ok u →
      (∀ signature functions s, Yields u.emit (.begin signature functions) () s →
        s.Tracks 0 [] ∧ s.assembler.finish = .ok s.assembler.method) ∧
      ∀ returnType signature, u.targetReturn = .ok returnType → u.checkParameters p = .ok true →
        u.signature returnType = .ok signature →
        EntryPoint.starter signature.method = .ok (EntryPoint.bridge signature.method) := by
  have hunit : ∀ u, FunctionUnit.ofDefinition d = .ok u →
      Emit.Excuses CompileError.IsAboutSource u.body.compounds := by
    intro u hu op hop
    obtain ⟨_, _, _, hbody⟩ := FunctionUnit.ofDefinition_eq_ok hu
    rw [Statement.compounds_toBody hbody] at hop
    exact absurd hop (hops op)
  refine ⟨fun fault q hfails => ?_, fun u hu => ⟨fun signature functions s hyields => ?_, ?_⟩⟩
  · unfold compile at hfails
    simp only [Fails.bind_iff, Build.fails_ofExcept, Build.yields_ofExcept] at hfails
    rcases hfails with ⟨herror, -⟩ | ⟨u, _, ⟨hu, rfl⟩, hfails⟩
    · exact FunctionUnit.blameless_ofDefinition d _ herror fault rfl
    · exact FunctionUnit.isAboutSource_of_fails (hunit u hu) hfails fault rfl
  · have hemit := FunctionUnit.finish_emit signature functions (hunit u hu)
    rw [show u.emit (.begin signature functions) = (.ok (), s) from hyields] at hemit
    exact hemit
  · exact fun returnType signature hreturn hneeds hsignature =>
      FunctionUnit.starter_eq_bridge hreturn hneeds hsignature

/-- An entry function with a loop that is left early and a compound assignment. -/
def FunctionDefinition.counting : FunctionDefinition :=
  Construct.intFunction "main" (some Construct.commandLineParameters)
    [Construct.whileLoop
      (Construct.binary (.logical .and) (Construct.name "argc") (Construct.name "argv"))
      (Construct.block [
        Construct.evaluate (Construct.assign (some (.arithmetic .sub)) (Construct.name "argc")
          (Construct.int 1)),
        Construct.conditional (Construct.name "argc") Construct.exitLoop none])]

/-- It is compiled without a fault. -/
theorem FunctionDefinition.compile_faultless_counting :
    (∀ op, .logical op ∉ counting.body.compounds) ∧
    (counting.compile (.empty "steady")).1.toOption = some () ∧
    ∀ fault q, ¬ Fails counting.compile (.empty "steady") (.internal fault) q := by
  have hcompounds : counting.body.compounds = [.arithmetic .sub] := rfl
  have hops : ∀ op, .logical op ∉ counting.body.compounds := by
    rw [hcompounds]
    exact fun op hop => nomatch List.mem_singleton.1 hop
  exact ⟨hops, by decide +kernel, (compile_faultless hops (.empty "steady")).1⟩

end ManagedC
