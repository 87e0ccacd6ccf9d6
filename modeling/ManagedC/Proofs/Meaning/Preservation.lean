import ManagedC.Proofs.Meaning.Functions
import ManagedC.Syntax.Construct

/-!
# Compilation preserves meaning

What the parts of a program do by the rules of the language, their code does in the machine: one induction
over the rules (`Does.realised`), each case of which is a lemma about the code of that part. Main
statement: a session that calls a function of a compiled unit gets the result that the function has in the
language (`TranslationUnit.call_preserves`).
-/

namespace ManagedC

open Meaning

/-! ## Ways out of bodies -/

namespace Meaning

/-- A body that returns by its shape is not left at its end. -/
def Deed.PassesOn : Deed → Prop
  | .statement body flow => body.returns = true → flow ≠ .normal
  | .parts bodies flow => Body.anyReturns bodies = true → flow ≠ .normal
  | _ => True

theorem Does.passesOn {us : List FunctionUnit} {scoping : Scoping} {f g : Frame} {deed : Deed}
    (h : Does us scoping f deed g) : deed.PassesOn := by
  induction h with
  | block _ _ ih => exact ih
  | chosen _ _ _ ih =>
    rename_i elseBranch _ _ _ _
    intro hreturns
    cases elseBranch with
    | none => cases hreturns
    | some elseBranch => exact ih (Bool.and_eq_true_iff.1 hreturns).1
  | otherwise _ _ _ ih => exact fun hreturns => ih (Bool.and_eq_true_iff.1 hreturns).2
  | ret | retValue => exact fun _ => nofun
  | declares _ _ _ ih => exact ih
  | first _ _ _ ihpart ihparts =>
    intro hreturns
    rcases Bool.or_eq_true_iff.1 hreturns with hpart | hparts
    · exact absurd rfl (ihpart hpart)
    · exact ihparts hparts
  | leaves _ _ hflow => exact fun _ => hflow
  | expression | skipped | whileLoop | doWhileLoop | doWhileExit | doWhileRet | forLoop | exitLoop
  | nextRound | empty | done => exact nofun
  | _ => trivial

end Meaning

/-! ## The induction -/

/-- What a part of a program does, its code does in every function in which it is compiled. -/
def Meaning.Deed.Realised (program : Module) (fs : List CompiledFunction) (f : Frame) (deed : Deed)
    (g : Frame) : Prop :=
  match deed with
  | .value e result => ∀ F ∈ fs, e.Realised program F f result g
  | .arguments es ns => ∀ F ∈ fs, Expression.ListRealised program F f es ns g
  | .effect e => ∀ F ∈ fs, Expression.EffectRealised program F f e g
  | .test e passed => ∀ F ∈ fs, Expression.TestRealised program F f e passed g
  | .declare ds => ∀ F ∈ fs, LocalDeclaration.ListRealised program F f ds g
  | .start body => ∀ F ∈ fs, Body.StartRealised program F f body g
  | .statement body flow =>
    body.isStatement = true → ∀ F ∈ fs, body.Realised program F f flow g
  | .parts bodies flow => ∀ F ∈ fs, Body.ListRealised program F f bodies flow g
  | .rounds condition update body flow =>
    body.isStatement = true → ∀ F ∈ fs, Body.RoundsRealised program F f condition update body flow g
  | .call u ns result => ∀ F ∈ fs, F.unit = u → F.Realised program ns result

namespace Meaning

variable {program : Module} {fs : List CompiledFunction} {f g : Frame} {deed : Deed}

/-- What a part of a program does, its code does, if the scope of a declared variable begins after its
initial value. -/
theorem Does.realised (hlinked : Linked program fs)
    (h : Does (fs.map (·.unit)) .late f deed g) : deed.Realised program fs f g := by
  induction h with
  | literal => exact fun F hF => Expression.Realised.literal
  | read hread => exact fun F hF => Expression.Realised.read hread
  | unary _ hop ih => exact fun F hF => Expression.Realised.unary (ih F hF) hop
  | binary _ _ hop ihl ihr =>
    exact fun F hF => Expression.Realised.binary (hlinked.addressable F hF) (ihl F hF) (ihr F hF) hop
  | decided _ hop ih => exact fun F hF => Expression.Realised.decided (ih F hF) hop
  | undecided _ hop _ ihl ihr => exact fun F hF => Expression.Realised.undecided (ihl F hF) hop (ihr F hF)
  | assign _ hwrite ih => exact fun F hF => Expression.Realised.assign (ih F hF) hwrite
  | update hread _ hop hwrite ih =>
    exact fun F hF => Expression.Realised.update (hlinked.addressable F hF) hread (ih F hF) hop hwrite
  | calls hfind _ _ iharguments ihcall =>
    exact fun F hF => Expression.Realised.call hlinked hF hfind (iharguments F hF) ihcall
  | noArguments => exact fun F hF => Expression.ListRealised.nil
  | argument _ _ ih ihrest => exact fun F hF => Expression.ListRealised.cons (ih F hF) (ihrest F hF)
  | noEffect => exact fun F hF => Expression.EffectRealised.none
  | effect _ ih => exact fun F hF => Expression.Realised.effect (ih F hF)
  | noTest => exact fun F hF => ⟨rfl, rfl⟩
  | test _ ih => exact fun F hF => ⟨_, rfl, ih F hF⟩
  | noLocals => exact fun F hF => LocalDeclaration.ListRealised.nil
  | plain hd hw _ ih =>
    exact fun F hF => LocalDeclaration.ListRealised.plain (hlinked.addressable F hF) hd hw (ih F hF)
  | seen hscoping => cases hscoping
  | unseen _ hd hw _ _ ih ihrest =>
    exact fun F hF => LocalDeclaration.ListRealised.initialized (hlinked.addressable F hF) hd hw
      (ih F hF) (ihrest F hF)
  | noStart => exact fun F hF => Body.StartRealised.none
  | startEffect _ ih => exact fun F hF => Body.StartRealised.effect (ih F hF)
  | startDeclare _ ih => exact fun F hF => Body.StartRealised.declare (ih F hF)
  | block _ hlength ih => exact fun _ F hF => Body.Realised.block (ih F hF) hlength
  | expression _ ih => exact fun _ F hF => Body.Realised.expression (ih F hF)
  | chosen _ _ ihtest ih =>
    rename_i elseBranch _ _ _
    intro hbody F hF
    cases elseBranch with
    | none => exact Body.Realised.chosen (ihtest F hF) (ih hbody F hF)
    | some => exact Body.Realised.chosen (ihtest F hF) (ih (Bool.and_eq_true_iff.1 hbody).1 F hF)
  | otherwise _ _ ihtest ih =>
    intro hbody F hF
    obtain ⟨hthen, helse⟩ := Bool.and_eq_true_iff.1 hbody
    exact Body.Realised.otherwise hthen (ihtest F hF) (ih helse F hF)
  | skipped _ ih => exact fun _ F hF => Body.Realised.skipped (ih F hF)
  | whileLoop _ ih =>
    intro hbody F hF
    exact Body.Realised.whileLoop (ih hbody F hF)
  | doWhileLoop _ hround _ ihfirst ih =>
    intro hbody F hF
    refine Body.Realised.doWhileLoop ?_ (ihfirst hbody F hF) hround (ih hbody F hF)
    exact hbody
  | doWhileExit _ ih =>
    intro hbody F hF
    refine Body.Realised.doWhileExit ?_ (ih hbody F hF)
    exact hbody
  | doWhileRet _ ih =>
    intro hbody F hF
    refine Body.Realised.doWhileRet ?_ (ih hbody F hF)
    exact hbody
  | forLoop _ _ hlength ihstart ih =>
    intro hbody F hF
    refine Body.Realised.forLoop ?_ (ihstart F hF) (ih hbody F hF) hlength
    exact hbody
  | exitLoop => exact fun _ F hF => Body.Realised.exitLoop
  | nextRound => exact fun _ F hF => Body.Realised.nextRound
  | ret => exact fun _ F hF => Body.Realised.ret
  | retValue _ ih => exact fun _ F hF => Body.Realised.retValue (ih F hF)
  | empty => exact fun _ F hF => Body.Realised.empty
  | done => exact fun F hF => Body.ListRealised.nil
  | declares _ _ ihds ih => exact fun F hF => Body.ListRealised.declares (ihds F hF) (ih F hF)
  | first hpart _ _ ihpart ih => exact fun F hF => Body.ListRealised.first hpart (ihpart hpart F hF) (ih F hF)
  | leaves hpart _ hflow ih => exact fun F hF => Body.ListRealised.leaves (ih hpart F hF) hflow
  | finished _ ih => exact fun _ F hF => Body.RoundsRealised.finished (ih F hF)
  | round _ _ hround _ _ ihtest ihbody ihupdate ih =>
    exact fun hbody F hF =>
      Body.RoundsRealised.round (ihtest F hF) (ihbody hbody F hF) hround (ihupdate F hF) (ih hbody F hF)
  | roundExit _ _ ihtest ihbody =>
    exact fun hbody F hF => Body.RoundsRealised.roundExit (ihtest F hF) (ihbody hbody F hF)
  | roundRet _ _ ihtest ihbody =>
    exact fun hbody F hF => Body.RoundsRealised.roundRet (ihtest F hF) (ihbody hbody F hF)
  | call hbind hbody hdoes hresult ih =>
    rintro F hF rfl
    refine .of_body (hlinked.addressable F hF) hbind hbody ?_ (ih hbody F hF) hresult
    rintro rfl
    by_contra hreturns
    exact hdoes.passesOn (Bool.not_eq_false _ ▸ hreturns) rfl

end Meaning

/-! ## Programs -/

namespace Program.Built

variable {name : String} {fs : List CompiledFunction} {p : Program}

/-- If all parameters are integers with a sign there is no starter, and calls find the functions. -/
theorem linked (h : Built name fs p) (hnodup : (fs.map (·.unit.name)).Nodup)
    (hparameters : ∀ F ∈ fs, ∀ q ∈ F.unit.parameterList, ∃ w : Width, q.type = w.type)
    (haddressable : ∀ F ∈ fs, F.method.Addressable) : Linked p.module fs := by
  have hfound : ∀ F ∈ fs, p.module.findMethod? F.unit.name = some F.method := by
    intro F hF
    rcases h.findMethod_or_bridge hnodup hF with hfind | ⟨-, entry, hfind⟩
    · exact hfind
    · have hmem : EntryPoint.bridge entry ∈ p.module.methods := by
        simpa using List.mem_of_find?_eq_some hfind
      rcases h.mem_methods hmem with ⟨G, -, hG⟩ | ⟨G, hG, -, hstarter⟩
      · have hhandlers := G.code.handlers
        rw [hG] at hhandlers
        cases hhandlers
      · -- A starter passes an address, and no parameter takes one.
        have htaken := (EntryPoint.kinds_bridgeable (EntryPoint.starter_eq_ok hstarter).1).1
        rw [G.takenKinds_method, G.parameters_getD] at htaken
        have hnumbers : ∀ k ∈ ((G.unit.parameterList.map (·.type)).map (·.kind)).reverse,
            k = .number := by
          intro k hk
          obtain ⟨q, hq, rfl⟩ := List.mem_map.1 (List.map_map ▸ List.mem_reverse.1 hk)
          obtain ⟨w, hw⟩ := hparameters G hG q hq
          rw [Function.comp_apply, hw]
          cases w <;> rfl
        generalize ((G.unit.parameterList.map (·.type)).map (·.kind)).reverse = kinds at *
        cases htaken with
        | cons hlent =>
          rw [hnumbers _ List.mem_cons_self] at hlent
          exact absurd hlent (by decide)
  exact ⟨fun F hF e he => h.signature_of_mem hF he, hfound, hnodup, hparameters, haddressable⟩

/-- A session that calls a function gets the result that the function has in the language. -/
theorem call (h : Built name fs p) (hlinked : Linked p.module fs) {F : CompiledFunction} (hF : F ∈ fs)
    {ns : List Number} {result : Option Number}
    (harguments : ns.map (·.width.type) = F.unit.parameterList.map (·.type))
    (hmeaning : Does (fs.map (·.unit)) .late [] (.call F.unit ns result) []) :
    ∃ n d, ∀ s : Session, s.program = p.module → s.steps + n ≤ s.limits.steps →
      s.store.depth + d ≤ s.limits.depth → s.call F.unit.name (ns.map Number.toValue) =
        some (.ok (result.map Number.toValue), { s with steps := s.steps + n }) := by
  have hanswers := (hmeaning.realised hlinked F hF rfl).answers
  have hpassed : (F.unit.parameterList.map (·.type)).zipWith CType.pass ns =
      ns.map Number.toValue := by
    rw [← harguments, List.zipWith_map_left, List.zipWith_self]
    exact List.map_congr_left fun n _ => by rw [CType.pass_type, n.convert_self]
  rw [hpassed] at hanswers
  have hlength : (ns.map Number.toValue).length = F.method.parameters.length := by
    rw [F.parameters_length, F.parameters_getD, ← harguments, List.length_map, List.length_map]
  obtain ⟨n, d, hinvoke⟩ := hanswers.invoke (h.method_mem hF) F.code.handlers hlength
  refine ⟨n, d, fun s hs hsteps hdepth => ?_⟩
  have hfind := hlinked.found F hF
  rw [← hs] at hfind
  unfold Session.call
  rw [hfind]
  exact hinvoke s hs hsteps hdepth

end Program.Built

/-- If the scope of a declared variable begins after its initial value, compilation preserves meaning: with
steps and room enough, a session that calls a function of a unit gets the result that the function has in
the language. -/
theorem TranslationUnit.call_preserves {unit : TranslationUnit} {name : String} {m : Module}
    {us : List FunctionUnit} (hcompile : unit.compile name = .ok m)
    (hunits : unit.functions.mapM FunctionUnit.ofDefinition = .ok us)
    (hdistinct : (us.map (·.name)).Nodup)
    (hparameters : ∀ u ∈ us, ∀ p ∈ u.parameterList, ∃ w : Width, p.type = w.type)
    (haddressable : ∀ method ∈ m.methods, method.Addressable) {u : FunctionUnit} (hu : u ∈ us)
    {ns : List Number} {result : Option Number}
    (harguments : ns.map (·.width.type) = u.parameterList.map (·.type))
    (hmeaning : Does us .late [] (.call u ns result) []) :
    ∃ n d, ∀ s : Session, s.program = m → s.steps + n ≤ s.limits.steps →
      s.store.depth + d ≤ s.limits.depth →
      s.call u.name (ns.map Number.toValue) =
        some (.ok (result.map Number.toValue), { s with steps := s.steps + n }) := by
  obtain ⟨fs, p, hbuilt, rfl, hfs⟩ := built_of_compile hcompile
  obtain rfl : fs.map (·.unit) = us := by
    rw [hfs] at hunits
    exact Except.ok.inj hunits
  obtain ⟨F, hF, rfl⟩ := List.mem_map.1 hu
  have hlinked : Linked p.module fs := hbuilt.linked (by rwa [List.map_map] at hdistinct)
    (fun G hG => hparameters G.unit (List.mem_map_of_mem hG))
    fun G hG => haddressable G.method (hbuilt.method_mem hG)
  exact hbuilt.call hlinked hF harguments hmeaning

/-- A program that adds up numbers. -/
def TranslationUnit.addsUp : TranslationUnit :=
  ⟨[Construct.intFunction "sum"
    (some (Construct.parameterList [Construct.namedParameter Construct.intSpecifier 0 "n"] false))
    [Construct.declare Construct.intSpecifier 0 "s" (some (Construct.int 0)),
      Construct.whileLoop (Construct.name "n") (Construct.block
        [Construct.evaluate (Construct.assign (some (.arithmetic .add)) (Construct.name "s")
            (Construct.name "n")),
          Construct.evaluate (Construct.assign (some (.arithmetic .sub)) (Construct.name "n")
            (Construct.int 1))]),
      Construct.ret (some (Construct.name "s"))]]⟩

/-- The function of that program. -/
def FunctionUnit.addsUp : FunctionUnit where
  name := "sum"
  returnType := .int
  parameters := some ⟨[⟨.int, some "n"⟩], false, false⟩
  body := .block [
    .declare [⟨"s", .int, some (Construct.int 0), .unknown⟩],
    .whileLoop (Construct.name "n") (.block [
      .expression (Construct.assign (some (.arithmetic .add)) (Construct.name "s")
        (Construct.name "n")),
      .expression (Construct.assign (some (.arithmetic .sub)) (Construct.name "n")
        (Construct.int 1))]),
    .ret (some (Construct.name "s")) .unknown]
  location := .unknown

/-- What that function makes of the number 1. -/
theorem FunctionUnit.does_addsUp :
    Does [.addsUp] .late [] (.call .addsUp [.literal 1] (some (.literal 1))) [] := by
  let vars (s n : Int64) : Frame :=
    [Cell.store ⟨"s", .int, none⟩ (.literal s), Cell.store ⟨"n", .int, none⟩ (.literal n)]
  have hadd : Does [.addsUp] .late (vars 0 1) (.statement (.expression
      (Construct.assign (some (.arithmetic .add)) (Construct.name "s") (Construct.name "n"))) .normal)
      (vars 1 1) :=
    .expression (.effect (.update (a := .literal 0) (b := .literal 1) (c := .literal 1) rfl (.read rfl)
      rfl rfl))
  have hsub : Does [.addsUp] .late (vars 1 1) (.statement (.expression
      (Construct.assign (some (.arithmetic .sub)) (Construct.name "n") (Construct.int 1))) .normal)
      (vars 1 0) :=
    .expression (.effect (.update (a := .literal 1) (b := .literal 1) (c := .literal 0) rfl .literal
      rfl rfl))
  have hround : Does [.addsUp] .late (vars 0 1) (.rounds (some (Construct.name "n")) none _ .normal)
      (vars 1 0) :=
    .round (.test (n := .literal 1) (.read rfl))
      (.block (i := []) (.first rfl hadd (.first rfl hsub .done)) rfl) rfl .noEffect
      (.finished (.test (n := .literal 0) (.read rfl)))
  exact .call rfl rfl (.block (g := vars 1 0 |>.tail) (i := vars 1 0 |>.take 1)
    (.declares (.unseen rfl rfl rfl .literal .noLocals) (.first rfl (.whileLoop hround)
      (.leaves rfl (.retValue (.read rfl)) nofun))) rfl) rfl

/-- Sessions that call that function with the number 1 get it back. -/
theorem TranslationUnit.call_addsUp : ∃ m n d, addsUp.compile "sums" = .ok m ∧
    ∀ s : Session, s.program = m → s.steps + n ≤ s.limits.steps →
      s.store.depth + d ≤ s.limits.depth →
      s.call "sum" [.int 1] = some (.ok (some (.int 1)), { s with steps := s.steps + n }) := by
  have hcompiles : (((addsUp.compile "sums").toOption).any fun m =>
      decide (∀ method ∈ m.methods, method.Addressable)) = true := by
    decide +kernel
  obtain ⟨m, hm, haddressable⟩ := (Option.any_eq_true _ _).1 hcompiles
  have hcompile := Except.of_toOption hm
  have hunits : addsUp.functions.mapM FunctionUnit.ofDefinition = .ok [.addsUp] := by cbv
  have hparameters : ∀ u ∈ [FunctionUnit.addsUp], ∀ p ∈ u.parameterList, ∃ w : Width, p.type = w.type :=
    List.forall_mem_singleton.2 (List.forall_mem_singleton.2 ⟨.int, rfl⟩)
  obtain ⟨n, d, h⟩ := call_preserves hcompile hunits (List.nodup_singleton _) hparameters
    (of_decide_eq_true haddressable) (List.mem_singleton_self _) rfl FunctionUnit.does_addsUp
  exact ⟨m, n, d, hcompile, h⟩

/-- A program with a variable whose initial value assigns to a variable of its name. -/
def TranslationUnit.hidesItself : TranslationUnit :=
  ⟨[Construct.intFunction "f" (some Construct.voidParameters)
    [Construct.declare Construct.intSpecifier 0 "x" (some (Construct.int 1)),
      Construct.block [Construct.declare Construct.intSpecifier 0 "x"
        (some (Construct.assign none (Construct.name "x") (Construct.int 5)))],
      Construct.ret (some (Construct.name "x"))]]⟩

/-- The function of that program. -/
def FunctionUnit.hidesItself : FunctionUnit where
  name := "f"
  returnType := .int
  parameters := some ⟨[], true, false⟩
  body := .block [
    .declare [⟨"x", .int, some (Construct.int 1), .unknown⟩],
    .block [.declare [⟨"x", .int,
      some (Construct.assign none (Construct.name "x") (Construct.int 5)), .unknown⟩]],
    .ret (some (Construct.name "x")) .unknown]
  location := .unknown

/-- The result of that function depends on where the scope of a declared variable begins: the assignment is
to the variable itself or to the one around it. -/
theorem FunctionUnit.does_hidesItself (scoping : Scoping) : Does [.hidesItself] scoping []
    (.call .hidesItself [] (some (.literal (if scoping = .early then 1 else 5)))) [] := by
  let x (v : Int64) : Cell := Cell.store ⟨"x", .int, none⟩ (.literal v)
  have hassign : ∀ content f, Does [.hidesItself] scoping (⟨"x", .int, content⟩ :: f) (.value
      (Construct.assign none (Construct.name "x") (Construct.int 5))
      (some ((Number.literal 5).convert .int))) (x 5 :: f) :=
    fun content f => .assign (a := .literal 5) .literal rfl
  have hend : ∀ v, (Number.literal v).convert .int = .literal v → Does [.hidesItself] scoping [x v]
      (.parts [.ret (some (Construct.name "x")) .unknown] (.ret (some (.literal v)))) [x v] :=
    fun v hv => .leaves rfl (.retValue (.read (by rw [← hv]; rfl))) nofun
  cases scoping with
  | early =>
    have hinner : Does [.hidesItself] .early [x 1] (.statement (.block [.declare [⟨"x", .int,
        some (Construct.assign none (Construct.name "x") (Construct.int 5)), .unknown⟩]]) .normal)
        [x 1] :=
      .block (i := [x 5])
        (.declares (.seen rfl rfl rfl (hassign _ _) .noLocals) .done) rfl
    exact .call rfl rfl (.block (i := [x 1]) (.declares (.seen rfl rfl rfl .literal .noLocals)
      (.first rfl hinner (hend 1 rfl))) rfl) rfl
  | late =>
    have hinner : Does [.hidesItself] .late [x 1] (.statement (.block [.declare [⟨"x", .int,
        some (Construct.assign none (Construct.name "x") (Construct.int 5)), .unknown⟩]]) .normal)
        [x 5] :=
      .block (i := [x 5])
        (.declares (.unseen rfl rfl rfl (hassign _ []) .noLocals) .done) rfl
    exact .call rfl rfl (.block (i := [x 5]) (.declares (.unseen rfl rfl rfl .literal .noLocals)
      (.first rfl hinner (hend 5 rfl))) rfl) rfl

/-- If the scope of a declared variable begins before its initial value, compilation does not preserve the
meaning of that program. -/
theorem TranslationUnit.call_hidesItself : ∃ m us u,
    hidesItself.compile "hides" = .ok m ∧
      hidesItself.functions.mapM FunctionUnit.ofDefinition = .ok us ∧ (us.map (·.name)).Nodup ∧
      (∀ u ∈ us, ∀ p ∈ u.parameterList, ∃ w : Width, p.type = w.type) ∧
      (∀ method ∈ m.methods, method.Addressable) ∧ u ∈ us ∧
      Does us .early [] (.call u [] (some (.literal 1))) [] ∧
      ¬ ∃ n d, ∀ s : Session, s.program = m → s.steps + n ≤ s.limits.steps →
        s.store.depth + d ≤ s.limits.depth → ∃ s', s.call u.name [] = some (.ok (some (.int 1)), s') := by
  have hcompiles : (((hidesItself.compile "hides").toOption).any fun m =>
      decide (∀ method ∈ m.methods, method.Addressable)) = true := by
    decide +kernel
  obtain ⟨m, hm, haddressable⟩ := (Option.any_eq_true _ _).1 hcompiles
  have haddressable := of_decide_eq_true haddressable
  have hcompile := Except.of_toOption hm
  have hunits : hidesItself.functions.mapM FunctionUnit.ofDefinition = .ok [.hidesItself] := by cbv
  have hnone : ∀ p ∈ FunctionUnit.hidesItself.parameterList, ∃ w : Width, p.type = w.type := by
    simp [show FunctionUnit.hidesItself.parameterList = [] from rfl]
  refine ⟨m, _, _, hcompile, hunits, List.nodup_singleton _, List.forall_mem_singleton.2 hnone, haddressable,
    List.mem_singleton_self _, FunctionUnit.does_hidesItself .early, ?_⟩
  rintro ⟨n, d, hone⟩
  obtain ⟨fs, p, hbuilt, hp, hfs⟩ := built_of_compile hcompile
  obtain ⟨F, rfl, hF⟩ := List.map_eq_singleton_iff.1 (Except.ok.inj (hfs.symm.trans hunits))
  have hlinked : Linked p.module [F] := hbuilt.linked (List.nodup_singleton _)
    (List.forall_mem_singleton.2 (hF ▸ hnone))
    fun G hG => haddressable G.method (hp ▸ hbuilt.method_mem hG)
  have harguments : ([] : List Number).map (·.width.type) = F.unit.parameterList.map (·.type) :=
    hF ▸ rfl
  obtain ⟨n', d', hfive⟩ := hbuilt.call hlinked (List.mem_singleton_self F) harguments
    (by rw [List.map_singleton, hF]; exact FunctionUnit.does_hidesItself .late)
  -- A session with steps and room enough for both would return both.
  let s : Session := { program := m, limits := ⟨n + n', d + d'⟩ }
  obtain ⟨s', hs⟩ := hone s rfl (by simp [s]) (by simp [s])
  have hcall := hfive s hp.symm (by simp [s]) (by simp [s])
  rw [hF] at hcall
  cases hs.symm.trans hcall

end ManagedC
