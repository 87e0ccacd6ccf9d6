import ManagedC.Syntax.Document
import ManagedC.Proofs.Documents.Records

/-!
# Syntax trees are read back

The document of each kind of node describes the node to its reader. The proofs follow the writers: a
constructor is a node or a record whose parts are described already. Main statement:
`TranslationUnit.describes`.
-/

namespace ManagedC

open Json (Describes field optionalField)

/-! ## Places -/

theorem Location.describes (l : Location) : Describes ofJson? l.toJson l := by
  refine .record rfl fun levels _ => ?_
  simp [ofJson?, field, Json.natBelow?_ofNat l.line.toNat_lt,
    Json.natBelow?_ofNat l.column.toNat_lt]

namespace Span

@[simp] theorem depth_toJson (s : Span) : s.toJson.depth = 2 := rfl

@[simp] theorem isIntegral_toJson (s : Span) : s.toJson.isIntegral = true := rfl

theorem describes (s : Span) : Describes ofJson? s.toJson s := by
  refine ⟨rfl, fun levels hdepth => ?_⟩
  obtain ⟨levels, rfl⟩ : ∃ n, levels = n + 2 := ⟨levels - 2, by rw [depth_toJson] at hdepth; omega⟩
  have hstart := s.start.describes.reads (levels + 1) (Nat.le_add_left 1 levels)
  have hstop := s.stop.describes.reads (levels + 1) (Nat.le_add_left 1 levels)
  simp [ofJson?, toJson, field, hstart, hstop]

theorem ofField?_toJson (s : Span) {levels : Nat} (h : 2 ≤ levels) :
    ofField? levels (some s.toJson) = some s := s.describes.reads levels h

end Span

/-! ## Expressions -/

theorem BinaryOp.describes (op : BinaryOp) : Describes ofJson? op.toJson op := by
  have hall : op ∈ all := by rcases op with op | op | op <;> cases op <;> decide
  exact Json.describes_name hall (by decide)

theorem UnaryOp.describes (op : UnaryOp) : Describes ofJson? op.toJson op := by
  have hall : op ∈ all := by cases op <;> decide
  exact Json.describes_name hall (by decide)

namespace Expression

@[simp] theorem depth_node (name : String) (payload : Json) (span : Span) :
    (node name payload span).depth = max (payload.depth + 1) 2 + 1 := by
  simp [node]
  omega

@[simp] theorem isIntegral_node (name : String) (payload : Json) (span : Span) :
    (node name payload span).isIntegral = payload.isIntegral := by
  simp [node]

@[simp] theorem fields?_node (name : String) (payload : Json) (span : Span) :
    Json.fields? [field "kind", optionalField "span"] (node name payload span) =
      some [some (.variant name payload), some span.toJson] :=
  Json.fields?_record rfl (by simp)

/-- A node describes an expression if its payload does under the name of the node. -/
theorem describes_node {name : String} {payload : Json} {span : Span} {e : Expression}
    (hintegral : payload.isIntegral = true)
    (h : ∀ levels, payload.depth ≤ levels →
      ofKind? (levels + 1) (.variant name payload) span = some e) :
    Describes ofJson? (node name payload span) e := by
  refine ⟨(isIntegral_node name payload span).trans hintegral, fun levels hdepth => ?_⟩
  rw [depth_node] at hdepth
  obtain ⟨levels, rfl⟩ : ∃ n, levels = n + 2 := ⟨levels - 2, by omega⟩
  have hspan := span.ofField?_toJson (Nat.le_of_lt_succ (by omega : 2 < levels + 2))
  simp [ofJson?, hspan, h levels (by omega)]

/-- The same for a payload that is a record. -/
theorem describes_record {name : String} {members : List (String × Json)} {span : Span}
    {e : Expression} (hintegral : (Json.record members).isIntegral = true)
    (h : ∀ levels, (Json.record members).depth ≤ levels + 1 →
      ofKind? (levels + 2) (.variant name (.record members)) span = some e) :
    Describes ofJson? (node name (.record members) span) e := by
  refine describes_node hintegral fun levels hdepth => ?_
  cases levels with
  | zero => exact absurd hdepth (Nat.not_succ_le_zero _)
  | succ levels => exact h levels hdepth

theorem listToJson_eq_map : ∀ es : List Expression, listToJson es = es.map toJson
  | [] => rfl
  | e :: es => by rw [listToJson, listToJson_eq_map es, List.map_cons]

theorem toJson_ne_null (e : Expression) : e.toJson ≠ .null := by
  cases e <;> nofun

mutual

theorem describes : ∀ e : Expression, Describes ofJson? e.toJson e
  | .intLiteral span value => describes_node rfl fun levels _ => by
    simp [ofKind?, Json.int64?_toInt]
  | .identifier span name => describes_node rfl fun levels _ => by simp [ofKind?]
  | .binary span op left right => by
    have hop := op.describes
    have hleft := left.describes
    have hright := right.describes
    refine describes_record ?_ fun levels hdepth => ?_
    · simp [hop.integral, hleft.integral, hright.integral]
    · simp at hdepth
      simp [ofKind?, field, hop.reads levels (by omega), hleft.reads levels (by omega),
        hright.reads levels (by omega)]
  | .unary span op operand => by
    have hop := op.describes
    have hoperand := operand.describes
    refine describes_record ?_ fun levels hdepth => ?_
    · simp [hop.integral, hoperand.integral]
    · simp at hdepth
      simp [ofKind?, field, hop.reads levels (by omega), hoperand.reads levels (by omega)]
  | .assignment span op target value => by
    have hop := Describes.nullable (o := op) (fun op _ => op.describes) nofun
    have htarget := target.describes
    have hvalue := value.describes
    refine describes_record ?_ fun levels hdepth => ?_
    · simp [hop.integral, htarget.integral, hvalue.integral]
    · simp at hdepth
      simp [ofKind?, field, hop.reads levels (by omega), htarget.reads levels (by omega),
        hvalue.reads levels (by omega)]
  | .call span function arguments => by
    have hfunction := function.describes
    have harguments := Describes.list (describesAll arguments)
    refine describes_record ?_ fun levels hdepth => ?_
    · simp [listToJson_eq_map, hfunction.integral, harguments.integral]
    · simp [listToJson_eq_map, Json.depth_arr] at hdepth
      obtain ⟨levels, rfl⟩ : ∃ n, levels = n + 1 := ⟨levels - 1, by omega⟩
      have hread := Json.mapM_describes (describesAll arguments) (by omega : _ ≤ levels)
      simp [ofKind?, field, listToJson_eq_map, hfunction.reads (levels + 1) (by omega), hread]
  | .subscript span array index => by
    have harray := array.describes
    have hindex := index.describes
    refine describes_record ?_ fun levels hdepth => ?_
    · simp [harray.integral, hindex.integral]
    · simp at hdepth
      simp [ofKind?, field, harray.reads levels (by omega), hindex.reads levels (by omega)]

theorem describesAll : ∀ es : List Expression, ∀ e ∈ es, Describes ofJson? e.toJson e
  | [] => nofun
  | e :: es => List.forall_mem_cons.2 ⟨describes e, describesAll es⟩

end

end Expression

/-! ## Declarations -/

theorem StorageClass.describes (s : StorageClass) : Describes ofJson? s.toJson s := by
  have hall : s ∈ all := by cases s <;> decide
  exact Json.describes_name hall (by decide)

theorem TypeQualifier.describes (q : TypeQualifier) : Describes ofJson? q.toJson q := by
  have hall : q ∈ all := by cases q <;> decide
  exact Json.describes_name hall (by decide)

theorem TypeSpecifier.describes (s : TypeSpecifier) : Describes ofJson? s.toJson s := by
  have hword : ∀ w ∈ words, Describes ofJson? (.ofText w.name) w := by
    refine fun w hw => ⟨rfl, fun levels hdepth => ?_⟩
    have hname := (Json.describes_name hw (by decide)).reads levels hdepth
    simpa [ofJson?] using hname
  cases s with
  | struct tag | typedefName tag =>
    exact .variant rfl fun levels _ => by simp [ofJson?]
  | _ => exact hword _ (by decide)

theorem DeclarationSpecifier.describes (s : DeclarationSpecifier) :
    Describes ofJson? s.toJson s := by
  cases s with
  | inlined => exact ⟨rfl, fun _ _ => rfl⟩
  | storage s | type s | qualifier s =>
    have hs := s.describes
    exact .variant hs.integral fun levels hdepth => by simp [ofJson?, hs.reads levels hdepth]

theorem ParameterDeclaration.listToJson_eq_map :
    ∀ ps : List ParameterDeclaration, listToJson ps = ps.map toJson
  | [] => rfl
  | p :: ps => by rw [listToJson, listToJson_eq_map ps, List.map_cons]

theorem Declarator.toJson_ne_null (d : Declarator) : d.toJson ≠ .null := by
  cases d
  nofun

theorem ParameterList.toJson_ne_null (ps : ParameterList) : ps.toJson ≠ .null := by
  cases ps
  nofun

mutual

theorem Declarator.describes : ∀ d : Declarator, Describes Declarator.ofJson? d.toJson d
  | .mk pointers direct span => by
    have hpointers := Describes.list fun qs (_ : qs ∈ pointers) =>
      Describes.list fun q (_ : q ∈ qs) => q.describes
    have hdirect := direct.describes
    refine .record (by simp [hpointers.integral, hdirect.integral]) fun levels hdepth => ?_
    simp at hdepth
    simp [Declarator.ofJson?, field, optionalField,
      hpointers.reads levels (by omega),
      hdirect.reads levels (by omega), span.ofField?_toJson (by omega : 2 ≤ levels)]

theorem DirectDeclarator.describes : ∀ d : DirectDeclarator,
    Describes DirectDeclarator.ofJson? d.toJson d
  | .identifier name => by
    exact .variant rfl fun levels _ => by simp [DirectDeclarator.ofJson?]
  | .unnamed => ⟨rfl, fun levels _ => by cases levels <;> rfl⟩
  | .array inner size => by
    have hinner := inner.describes
    have hsize : Describes (fun _ => Json.nullable? fun n => (Json.index? n).map UInt64.ofNat)
        ((size.map fun n => Json.ofNat n.toNat).getD .null) size := by
      refine .nullable (fun n _ => ⟨rfl, fun _ _ => ?_⟩) nofun
      rw [Json.index?, Json.natBelow?_ofNat n.toNat_lt, Option.map_some, UInt64.ofNat_toNat]
    refine ⟨by simp [DirectDeclarator.toJson, hinner.integral, hsize.integral],
      fun levels hdepth => ?_⟩
    simp [DirectDeclarator.toJson] at hdepth
    obtain ⟨levels, rfl⟩ : ∃ n, levels = n + 2 := ⟨levels - 2, by omega⟩
    simp [DirectDeclarator.ofJson?, DirectDeclarator.toJson, field, hinner.reads levels (by omega),
      hsize.reads levels (by omega)]
  | .function inner none => by
    have hinner := inner.describes
    refine ⟨by simp [DirectDeclarator.toJson, hinner.integral], fun levels hdepth => ?_⟩
    simp [DirectDeclarator.toJson] at hdepth
    obtain ⟨levels, rfl⟩ : ∃ n, levels = n + 2 := ⟨levels - 2, by omega⟩
    simp [DirectDeclarator.ofJson?, DirectDeclarator.toJson, field, hinner.reads levels (by omega)]
  | .function inner (some parameters) => by
    have hinner := inner.describes
    have hparameters := parameters.describes
    refine ⟨by simp [DirectDeclarator.toJson, hinner.integral, hparameters.integral],
      fun levels hdepth => ?_⟩
    simp [DirectDeclarator.toJson] at hdepth
    obtain ⟨levels, rfl⟩ : ∃ n, levels = n + 2 := ⟨levels - 2, by omega⟩
    simp [DirectDeclarator.ofJson?, DirectDeclarator.toJson, field, hinner.reads levels (by omega),
      Json.nullable?.eq_2 _ _ parameters.toJson_ne_null, hparameters.reads levels (by omega)]

theorem ParameterList.describes : ∀ ps : ParameterList, Describes ParameterList.ofJson? ps.toJson ps
  | .mk parameters hasEllipsis => by
    have hparameters := Describes.list (ParameterDeclaration.describesAll parameters)
    refine ⟨?_, fun levels hdepth => ?_⟩
    · simp [ParameterList.toJson, ParameterDeclaration.listToJson_eq_map, hparameters.integral]
    · simp [ParameterList.toJson, ParameterDeclaration.listToJson_eq_map, Json.depth_arr] at hdepth
      obtain ⟨levels, rfl⟩ : ∃ n, levels = n + 2 := ⟨levels - 2, by omega⟩
      have hread := Json.mapM_describes (ParameterDeclaration.describesAll parameters)
        (by omega : _ ≤ levels)
      simp [ParameterList.ofJson?, ParameterList.toJson, field, optionalField,
        ParameterDeclaration.listToJson_eq_map, hread]

theorem ParameterDeclaration.describes :
    ∀ p : ParameterDeclaration, Describes ParameterDeclaration.ofJson? p.toJson p
  | .mk specifiers none => by
    have hspecifiers := Describes.list fun s (_ : s ∈ specifiers) => s.describes
    refine .record (by simp [hspecifiers.integral]) fun levels hdepth => ?_
    simp at hdepth
    simp [ParameterDeclaration.ofJson?, field,
      hspecifiers.reads levels (by omega)]
  | .mk specifiers (some declarator) => by
    have hspecifiers := Describes.list fun s (_ : s ∈ specifiers) => s.describes
    have hdeclarator := declarator.describes
    refine .record (by simp [hspecifiers.integral, hdeclarator.integral]) fun levels hdepth => ?_
    simp at hdepth
    simp [ParameterDeclaration.ofJson?, field,
      hspecifiers.reads levels (by omega),
      Json.nullable?.eq_2 _ _ declarator.toJson_ne_null, hdeclarator.reads levels (by omega)]

theorem ParameterDeclaration.describesAll :
    ∀ ps : List ParameterDeclaration, ∀ p ∈ ps, Describes ParameterDeclaration.ofJson? p.toJson p
  | [] => nofun
  | p :: ps => List.forall_mem_cons.2 ⟨p.describes, ParameterDeclaration.describesAll ps⟩

end

theorem InitDeclarator.describes (d : InitDeclarator) : Describes ofJson? d.toJson d := by
  have hdeclarator := d.declarator.describes
  have hinitializer := Describes.nullable (o := d.initializer) (fun e _ => e.describes)
    Expression.toJson_ne_null
  refine .record (by simp [hdeclarator.integral, hinitializer.integral]) fun levels hdepth => ?_
  simp at hdepth
  simp [ofJson?, field, hdeclarator.reads levels (by omega),
    hinitializer.reads levels (by omega)]

theorem Declaration.describes (d : Declaration) : Describes ofJson? d.toJson d := by
  have hspecifiers := Describes.list fun s (_ : s ∈ d.specifiers) => s.describes
  have hdeclarators := Describes.list fun i (_ : i ∈ d.declarators) => i.describes
  refine .record (by simp [hspecifiers.integral, hdeclarators.integral]) fun levels hdepth => ?_
  simp at hdepth
  simp [ofJson?, field, optionalField, hspecifiers.reads levels (by omega),
    hdeclarators.reads levels (by omega), d.span.ofField?_toJson (by omega : 2 ≤ levels)]

/-! ## Statements -/

namespace Statement

/-- A node describes a statement if its payload does under the name of the node. -/
theorem describes_node {name : String} {payload : Json} {span : Span} {s : Statement}
    (hintegral : payload.isIntegral = true)
    (h : ∀ levels, payload.depth ≤ levels →
      ofKind? (levels + 1) (.variant name payload) span = some s) :
    Describes ofJson? (Expression.node name payload span) s := by
  refine ⟨(Expression.isIntegral_node name payload span).trans hintegral, fun levels hdepth => ?_⟩
  rw [Expression.depth_node] at hdepth
  obtain ⟨levels, rfl⟩ : ∃ n, levels = n + 2 := ⟨levels - 2, by omega⟩
  have hspan := span.ofField?_toJson (Nat.le_of_lt_succ (by omega : 2 < levels + 2))
  simp [ofJson?, hspan, h levels (by omega)]

/-- The same for a payload that is a record. The reader looks whether the payload is an object
before it reads the fields of it. -/
theorem describes_record {name : String} {members : List (String × Json)} {span : Span}
    {s : Statement} (hintegral : (Json.record members).isIntegral = true)
    (hkeys : (members.map (·.1)).Nodup)
    (h : ∀ levels ms, (Json.record members).depth ≤ levels + 1 →
      (∀ fields : List Json.Field, fields.map (·.key) = members.map (·.1) →
        Json.fields? fields (.obj ms) = some (members.map fun m => some m.2)) →
      ofKind? (levels + 2) (.variant name (.obj ms)) span = some s) :
    Describes ofJson? (Expression.node name (.record members) span) s := by
  refine describes_node hintegral fun levels hdepth => ?_
  cases levels with
  | zero => exact absurd hdepth (Nat.not_succ_le_zero _)
  | succ levels => exact h levels _ hdepth fun fields hfields => Json.fields?_record hfields hkeys

/-- A name alone describes a statement without parts. -/
theorem describes_word {name : String} {span : Span} {s : Statement}
    (h : ofWord? span name = some s) :
    Describes ofJson? (.record [("kind", .ofText name), ("span", span.toJson)]) s := by
  refine ⟨by simp, fun levels hdepth => ?_⟩
  simp at hdepth
  obtain ⟨levels, rfl⟩ : ∃ n, levels = n + 2 := ⟨levels - 2, by omega⟩
  have hspan := span.ofField?_toJson (Nat.le_of_lt_succ (by omega : 2 < levels + 2))
  simp [ofJson?, ofKind?, field, optionalField, hspan, h]

theorem listToJson_eq_map : ∀ ss : List Statement, listToJson ss = ss.map toJson
  | [] => rfl
  | s :: ss => by rw [listToJson, listToJson_eq_map ss, List.map_cons]

theorem toJson_ne_null (s : Statement) : s.toJson ≠ .null := by
  cases s with
  | conditional span condition thenBranch elseBranch => cases elseBranch <;> nofun
  | forLoop span start => cases start <;> nofun
  | _ => nofun

mutual

theorem describes : ∀ s : Statement, Describes ofJson? s.toJson s
  | .expression span e => describes_node e.describes.integral fun levels hdepth => by
    simp [ofKind?, e.describes.reads levels hdepth]
  | .compound span statements => by
    have hstatements := Describes.list (describesAll statements)
    refine describes_node ?_ fun levels hdepth => ?_
    · simp [listToJson_eq_map, hstatements.integral]
    · rw [listToJson_eq_map, Json.depth_arr] at hdepth
      obtain ⟨levels, rfl⟩ : ∃ n, levels = n + 1 := ⟨levels - 1, by omega⟩
      have hread := Json.mapM_describes (describesAll statements) (Nat.le_of_succ_le_succ hdepth)
      simp [ofKind?, listToJson_eq_map, hread]
  | .declaration span d => describes_node d.describes.integral fun levels hdepth => by
    simp [ofKind?, d.describes.reads levels hdepth]
  | .conditional span condition thenBranch none => by
    have hcondition := condition.describes
    have hthen := thenBranch.describes
    refine describes_record ?_ (by simp) fun levels ms hdepth hfields => ?_
    · simp [hcondition.integral, hthen.integral]
    · simp at hdepth
      simp [ofKind?, hfields, field, hcondition.reads levels (by omega),
        hthen.reads levels (by omega)]
  | .conditional span condition thenBranch (some elseBranch) => by
    have hcondition := condition.describes
    have hthen := thenBranch.describes
    have helse := elseBranch.describes
    refine describes_record ?_ (by simp) fun levels ms hdepth hfields => ?_
    · simp [hcondition.integral, hthen.integral, helse.integral]
    · simp at hdepth
      simp [ofKind?, hfields, field, hcondition.reads levels (by omega),
        hthen.reads levels (by omega),
        Json.nullable?.eq_2 _ _ elseBranch.toJson_ne_null, helse.reads levels (by omega)]
  | .whileLoop span condition body => by
    have hcondition := condition.describes
    have hbody := body.describes
    refine describes_record ?_ (by simp) fun levels ms hdepth hfields => ?_
    · simp [hcondition.integral, hbody.integral]
    · simp at hdepth
      simp [ofKind?, hfields, field, hcondition.reads levels (by omega),
        hbody.reads levels (by omega)]
  | .doWhileLoop span body condition => by
    have hcondition := condition.describes
    have hbody := body.describes
    refine describes_record ?_ (by simp) fun levels ms hdepth hfields => ?_
    · simp [hcondition.integral, hbody.integral]
    · simp at hdepth
      simp [ofKind?, hfields, field, hcondition.reads levels (by omega),
        hbody.reads levels (by omega)]
  | .forLoop span none condition update body => by
    have hcondition := Describes.nullable (o := condition) (fun e _ => e.describes)
      Expression.toJson_ne_null
    have hupdate := Describes.nullable (o := update) (fun e _ => e.describes)
      Expression.toJson_ne_null
    have hbody := body.describes
    refine describes_record ?_ (by simp) fun levels ms hdepth hfields => ?_
    · simp [hcondition.integral, hupdate.integral, hbody.integral]
    · simp at hdepth
      simp [ofKind?, hfields, field, hcondition.reads levels (by omega),
        hupdate.reads levels (by omega),
        hbody.reads levels (by omega)]
  | .forLoop span (some start) condition update body => by
    have hstart := start.describes
    have hcondition := Describes.nullable (o := condition) (fun e _ => e.describes)
      Expression.toJson_ne_null
    have hupdate := Describes.nullable (o := update) (fun e _ => e.describes)
      Expression.toJson_ne_null
    have hbody := body.describes
    refine describes_record ?_ (by simp) fun levels ms hdepth hfields => ?_
    · simp [hstart.integral, hcondition.integral, hupdate.integral, hbody.integral]
    · simp at hdepth
      simp [ofKind?, hfields, field, Json.nullable?.eq_2 _ _ start.toJson_ne_null,
        hstart.reads levels (by omega), hcondition.reads levels (by omega),
        hupdate.reads levels (by omega), hbody.reads levels (by omega)]
  | .switch span e body => by
    have he := e.describes
    have hbody := body.describes
    refine describes_record ?_ (by simp) fun levels ms hdepth hfields => ?_
    · simp [he.integral, hbody.integral]
    · simp at hdepth
      simp [ofKind?, hfields, field, he.reads levels (by omega), hbody.reads levels (by omega)]
  | .labeled span label statement => by
    have hstatement := statement.describes
    refine describes_record ?_ (by simp) fun levels ms hdepth hfields => ?_
    · simp [hstatement.integral]
    · simp at hdepth
      simp [ofKind?, hfields, field, hstatement.reads levels (by omega)]
  | .goto span label => describes_node rfl fun levels _ => by simp [ofKind?]
  | .exitLoop span => describes_word rfl
  | .nextRound span => describes_word rfl
  | .ret span value => by
    have hvalue := Describes.nullable (o := value) (fun e _ => e.describes)
      Expression.toJson_ne_null
    refine describes_node hvalue.integral fun levels hdepth => ?_
    simp [ofKind?, hvalue.reads levels hdepth]
  | .empty span => describes_word rfl

theorem describesAll : ∀ ss : List Statement, ∀ s ∈ ss, Describes ofJson? s.toJson s
  | [] => nofun
  | s :: ss => List.forall_mem_cons.2 ⟨describes s, describesAll ss⟩

end

end Statement

/-! ## Units -/

theorem FunctionDefinition.describes (f : FunctionDefinition) : Describes ofJson? f.toJson f := by
  have hspecifiers := Describes.list fun s (_ : s ∈ f.specifiers) => s.describes
  have hdeclarator := f.declarator.describes
  have hdeclarations := Describes.list fun d (_ : d ∈ f.declarations) => d.describes
  have hbody := f.body.describes
  refine .record ?_ fun levels hdepth => ?_
  · simp [hspecifiers.integral, hdeclarator.integral, hdeclarations.integral, hbody.integral]
  · simp at hdepth
    simp [ofJson?, field, optionalField, hspecifiers.reads levels (by omega),
      hdeclarator.reads levels (by omega), hdeclarations.reads levels (by omega),
      hbody.reads levels (by omega), f.span.ofField?_toJson (by omega : 2 ≤ levels)]

theorem TranslationUnit.describes (u : TranslationUnit) : Describes ofJson? u.toJson u := by
  have hfunctions := Describes.list fun f (_ : f ∈ u.functions) => f.describes
  refine .record (by simp [hfunctions.integral]) fun levels hdepth => ?_
  simp at hdepth
  simp [ofJson?, field, hfunctions.reads levels (by omega)]

end ManagedC
