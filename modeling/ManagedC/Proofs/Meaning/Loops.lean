import ManagedC.Proofs.Meaning.Statements

/-!
# Loops do what the language says

All loops have rounds: a test, the body and an update. Where the code of these is, and how control gets from
one to the next, is put together in a `Loop`, whichever form the loop is written in. Main statements: one
lemma for each rule about rounds (`Body.RoundsRealised`), and one for each rule about the three forms of
loops.
-/

namespace ManagedC

open Meaning

namespace Body

variable {program : Module} {F : CompiledFunction} {f g h inner : Frame} {e : Expression} {s t : Scope}
  {ds : List LocalDeclaration} {body : Body} {flow : Flow} {update : Option Expression}
  {stack : List Value} {x : Activation}

/-! ## Rounds -/

/-- The code of the rounds of a loop, around which there are variables with some names. -/
structure Loop (program : Module) (F : CompiledFunction) (names : Names)
    (condition update : Option Expression) (body : Body) where
  /-- The start of the test. -/
  test : Scope
  /-- The start of the body. -/
  start : Scope
  /-- The end of the body. -/
  stop : Scope
  /-- The start of the update. -/
  next : Scope
  /-- The end of the update. -/
  last : Scope
  /-- The labels of the loop. -/
  labels : LoopLabels
  /-- The place behind the loop. -/
  exit : Nat
  /-- The test is part of the function. -/
  test_sound : test.Sound F
  /-- It sees the variables. -/
  test_names : test.names = names
  /-- It leads to the body or behind the loop. -/
  decides : Expression.Decides F test condition start.offset exit
  /-- The body is part of the function. -/
  start_sound : start.Sound F
  /-- It sees the variables. -/
  start_names : start.names = names
  /-- Control can come to it. -/
  start_open : start.assembler.isTerminated = false
  /-- Its code. -/
  code : Body.Code (start.openLoop labels) [body] stop
  /-- The method goes on after it. -/
  stop_extends : stop.assembler.method.Extends F.method
  /-- From its end control goes to the update. -/
  stop_leads : ∀ (g : Frame) (stack : List Value),
    Point.Leads program F ⟨names, g, stop.offset, stack⟩ ⟨names, g, next.offset, stack⟩
  /-- The end of the loop is at its label. -/
  exit_target : F.method.body.labels.offset? labels.exit = some exit
  /-- So is the update. -/
  next_target : F.method.body.labels.offset? labels.next = some next.offset
  /-- The update is part of the function. -/
  next_sound : next.Sound F
  /-- It sees the variables. -/
  next_names : next.names = names
  /-- Its code. -/
  update_code : Expression.EffectCode next update last
  /-- The method goes on after it. -/
  last_extends : last.assembler.method.Extends F.method
  /-- From its end control goes back to the test. -/
  last_leads : ∀ (g : Frame) (stack : List Value),
    Point.Leads program F ⟨names, g, last.offset, stack⟩ ⟨names, g, test.offset, stack⟩

/-- Wherever the rounds of a loop are compiled, their code does what they do. -/
def RoundsRealised (program : Module) (F : CompiledFunction) (f : Frame)
    (condition update : Option Expression) (body : Body) (flow : Flow) (g : Frame) : Prop :=
  ∀ {names : Names} (l : Loop program F names condition update body) (stack : List Value)
    (x : Activation), x.At F ⟨names, f, l.test.offset, stack⟩ →
    x.Ends program F [] l.exit names g stack flow

namespace Loop

variable {names : Names} {condition : Option Expression} {passed : Bool}

/-- The test leads to the body or behind the loop. -/
theorem comes_test (l : Loop program F names condition update body)
    (htest : Expression.TestRealised program F f condition passed g)
    (hx : x.At F ⟨names, f, l.test.offset, stack⟩) :
    x.Comes program F ⟨names, g, if passed then l.start.offset else l.exit, stack⟩ := by
  have hstart : x.At F (l.test.point f stack) := by
    rw [Scope.point, l.test_names]
    exact hx
  have hcomes := htest.comes l.decides l.test_sound hstart
  rwa [l.test_names] at hcomes

/-- The body is left in a way. -/
theorem ends_body (l : Loop program F names condition update body)
    (hbody : body.Realised program F f flow g) (hx : x.At F ⟨names, f, l.start.offset, stack⟩) :
    x.Ends program F (l.labels :: l.start.loops) l.stop.offset names g stack flow := by
  have hstart : (l.start.openLoop l.labels).names = names := l.start_names
  have hends := (hbody l.code (l.start_sound.openLoop l.labels) l.stop_extends l.start_open stack x
    (by rw [Scope.point, hstart]; exact hx)).2
  rw [hstart] at hends
  exact hends

/-- After a round control comes to the update. -/
theorem comes_next (l : Loop program F names condition update body) {loops : List LoopLabels}
    (hends : x.Ends program F (l.labels :: loops) l.stop.offset names g stack flow)
    (hround : flow.isRound = true) : x.Comes program F ⟨names, g, l.next.offset, stack⟩ := by
  cases hends with
  | normal hcomes => exact hcomes.leads (l.stop_leads g stack)
  | nextRound hl ht hcomes =>
    cases hl
    cases ht.symm.trans l.next_target
    exact hcomes
  | exitLoop | ret => cases hround

/-- A round that ends the loop comes behind it. -/
theorem comes_exit (l : Loop program F names condition update body) {loops : List LoopLabels}
    (hends : x.Ends program F (l.labels :: loops) l.stop.offset names g stack .exitLoop) :
    x.Comes program F ⟨names, g, l.exit, stack⟩ := by
  cases hends with
  | exitLoop hl ht hcomes =>
    cases hl
    cases ht.symm.trans l.exit_target
    exact hcomes

/-- The update leads back to the test. -/
theorem comes_update (l : Loop program F names condition update body)
    (hupdate : Expression.EffectRealised program F f update g)
    (hx : x.At F ⟨names, f, l.next.offset, stack⟩) :
    x.Comes program F ⟨names, g, l.test.offset, stack⟩ := by
  have hcomes := (hupdate l.update_code l.next_sound l.last_extends stack x (by
    rw [Scope.point, l.next_names]
    exact hx)).2
  rw [Scope.point, l.update_code.emits.names, l.next_names] at hcomes
  exact hcomes.leads (l.last_leads g stack)

end Loop

theorem RoundsRealised.finished {condition : Option Expression}
    (htest : Expression.TestRealised program F f condition false g) :
    RoundsRealised program F f condition update body .normal g := by
  intro names l stack x hx
  exact .normal (l.comes_test htest hx)

theorem RoundsRealised.round {condition : Option Expression} {first : Flow} {i j : Frame}
    (htest : Expression.TestRealised program F f condition true g)
    (hbody : body.Realised program F g first h) (hround : first.isRound = true)
    (hupdate : Expression.EffectRealised program F h update i)
    (hrounds : RoundsRealised program F i condition update body flow j) :
    RoundsRealised program F f condition update body flow j := by
  intro names l stack x hx
  obtain ⟨y, hxy, hy⟩ := l.comes_test htest hx
  obtain ⟨z, hyz, hz⟩ := l.comes_next (l.ends_body hbody hy) hround
  obtain ⟨a, hza, ha⟩ := l.comes_update hupdate hz
  exact (hrounds l stack a ha).after (hxy.trans (hyz.trans hza))

theorem RoundsRealised.roundExit {condition : Option Expression}
    (htest : Expression.TestRealised program F f condition true g)
    (hbody : body.Realised program F g .exitLoop h) :
    RoundsRealised program F f condition update body .normal h := by
  intro names l stack x hx
  obtain ⟨y, hxy, hy⟩ := l.comes_test htest hx
  exact .normal (hxy.comes (l.comes_exit (l.ends_body hbody hy)))

theorem RoundsRealised.roundRet {condition : Option Expression} {value : Option Number}
    (htest : Expression.TestRealised program F f condition true g)
    (hbody : body.Realised program F g (.ret value) h) :
    RoundsRealised program F f condition update body (.ret value) h := by
  intro names l stack x hx
  obtain ⟨y, hxy, hy⟩ := l.comes_test htest hx
  exact (l.ends_body hbody hy).of_ret.after hxy

/-! ## Loops that test before their body -/

/-- The parts of a loop that tests before its body. -/
theorem Code.whileLoop_parts {condition : Expression} (hcode : Code s [.whileLoop condition body] t)
    (hs : s.Sound F) (hM : t.assembler.method.Extends F.method) :
    ∃ l : Loop program F s.names (some condition) none body,
      l.test.offset = s.offset ∧ l.exit = t.offset := by
  cases hcode with
  | @whileLoop _ a u v _ _ _ ha htest hcode ht =>
    have hstart : s.Emits a := (Scope.emits_reserve s 2).trans ha.emits
    have hjM := ht.emits.extends hM
    have hvM := (Scope.emits_single v.closeLoop _ rfl).extends hjM
    have huM := hcode.grows.extends hvM
    have haM := htest.emits.extends huM
    have has := hs.emits hstart
    have hback : F.method.body.labels.offset? s.nextLabel = some a.offset := by
      rw [ha.offset]
      exact ha.target haM
    have hexit : F.method.body.labels.offset? (s.nextLabel + 1) = some t.offset := by
      rw [ht.offset]
      exact ht.target hM
    exact ⟨{
      test := a
      start := u
      stop := v
      next := a
      last := a
      labels := ⟨s.nextLabel + 1, s.nextLabel⟩
      exit := t.offset
      test_sound := has
      test_names := hstart.names
      decides := htest.decides huM hexit
      start_sound := has.emits htest.emits
      start_names := (hstart.trans htest.emits).names
      start_open := htest.isTerminated ha.isTerminated
      code := hcode
      stop_extends := hvM
      stop_leads := fun _ _ => Point.leads_branch (Scope.hasCode_append hjM).head hback
      exit_target := hexit
      next_target := hback
      next_sound := has
      next_names := hstart.names
      update_code := .none
      last_extends := haM
      last_leads := fun _ _ => .refl _ }, ha.offset, rfl⟩

theorem Realised.whileLoop {condition : Expression}
    (hrounds : RoundsRealised program F f (some condition) none body flow g) :
    (Body.whileLoop condition body).Realised program F f flow g := by
  intro s t hcode hs hM hopen stack x hx
  obtain ⟨l, htest, hexit⟩ := hcode.whileLoop_parts hs hM
  have hends := hrounds l stack x (htest ▸ hx)
  rw [hexit] at hends
  cases hcode with
  | whileLoop _ _ _ ht => exact ⟨fun _ => ht.isTerminated, hends.of_nil⟩

/-! ## Loops that test after their body -/

/-- The parts of a loop that tests after its body. -/
theorem Code.doWhileLoop_parts {condition : Expression}
    (hcode : Code s [.doWhileLoop body condition] t) (hs : s.Sound F)
    (hM : t.assembler.method.Extends F.method) (hbody : body.isStatement = true) :
    ∃ l : Loop program F s.names (some condition) none body,
      l.start.offset = s.offset ∧ l.next = l.test ∧ l.exit = t.offset := by
  cases hcode with
  | @doWhileLoop _ a v w x _ _ _ type ha hcode hw htest _ ht =>
    have hstart : s.Emits a := (Scope.emits_reserve s 3).trans ha.emits
    have hnext : s.Emits w := hstart.trans ((hcode.emits body rfl hbody).closeLoop.trans hw.emits)
    have hjM := ht.emits.extends hM
    have hxM := (Scope.emits_single x _ rfl).extends hjM
    have hwM := htest.emits.extends hxM
    have hvM : v.assembler.method.Extends F.method := hw.emits.extends hwM
    have haM : a.assembler.method.Extends F.method := hcode.grows.extends hvM
    have hback : F.method.body.labels.offset? s.nextLabel = some a.offset := by
      rw [ha.offset]
      exact ha.target haM
    have hover : F.method.body.labels.offset? (s.nextLabel + 2) = some t.offset := by
      rw [ht.offset]
      exact ht.target hM
    have hround : F.method.body.labels.offset? (s.nextLabel + 1) = some w.offset := by
      rw [hw.offset]
      exact hw.target hwM
    have hexit : x.offset + 1 = t.offset := by
      rw [ht.offset, Scope.offset_append]
      rfl
    exact ⟨{
      test := w
      start := a
      stop := v
      next := w
      last := w
      labels := ⟨s.nextLabel + 2, s.nextLabel + 1⟩
      exit := t.offset
      test_sound := hs.emits hnext
      test_names := hnext.names
      decides := hexit ▸ .passing htest hjM hback
      start_sound := hs.emits hstart
      start_names := hstart.names
      start_open := ha.isTerminated
      code := hcode
      stop_extends := hvM
      stop_leads := fun _ _ => by
        rw [hw.offset]
        exact .refl _
      exit_target := hover
      next_target := hround
      next_sound := hs.emits hnext
      next_names := hnext.names
      update_code := .none
      last_extends := hwM
      last_leads := fun _ _ => .refl _ }, ha.offset, rfl, rfl⟩

/-- What the first round of a loop that tests after its body comes to is what the loop comes to. -/
theorem Realised.doWhile {condition : Expression} (hbody : body.isStatement = true)
    (h : ∀ {names : Names} (l : Loop program F names (some condition) none body)
      (stack : List Value) (x : Activation), l.next = l.test →
      x.At F ⟨names, f, l.start.offset, stack⟩ → x.Ends program F [] l.exit names g stack flow) :
    (Body.doWhileLoop body condition).Realised program F f flow g := by
  intro s t hcode hs hM hopen stack x hx
  obtain ⟨l, hstart, hnext, hexit⟩ := hcode.doWhileLoop_parts hs hM hbody
  have hends := h l stack x hnext (hstart ▸ hx)
  rw [hexit] at hends
  cases hcode with
  | doWhileLoop _ _ _ _ _ ht => exact ⟨fun _ => ht.isTerminated, hends.of_nil⟩

theorem Realised.doWhileLoop {condition : Expression} {first : Flow} (hbody : body.isStatement = true)
    (hfirst : body.Realised program F f first g) (hround : first.isRound = true)
    (hrounds : RoundsRealised program F g (some condition) none body flow h) :
    (Body.doWhileLoop body condition).Realised program F f flow h := by
  refine Realised.doWhile hbody fun l stack x hnext hx => ?_
  obtain ⟨y, hxy, hy⟩ := l.comes_next (l.ends_body hfirst hx) hround
  rw [hnext] at hy
  exact (hrounds l stack y hy).after hxy

theorem Realised.doWhileExit {condition : Expression} (hbody : body.isStatement = true)
    (hfirst : body.Realised program F f .exitLoop g) :
    (Body.doWhileLoop body condition).Realised program F f .normal g :=
  Realised.doWhile hbody fun l _ _ _ hx => .normal (l.comes_exit (l.ends_body hfirst hx))

theorem Realised.doWhileRet {condition : Expression} {value : Option Number}
    (hbody : body.isStatement = true) (hfirst : body.Realised program F f (.ret value) g) :
    (Body.doWhileLoop body condition).Realised program F f (.ret value) g :=
  Realised.doWhile hbody fun l _ _ _ hx => (l.ends_body hfirst hx).of_ret

/-! ## Loops with a start -/

theorem StartRealised.none : StartRealised program F f none f := by
  intro s t hcode hs hM stack x hx
  cases hcode with
  | nil => exact ⟨hs, List.suffix_rfl, x, .refl x, hx⟩

theorem StartRealised.effect (he : Expression.EffectRealised program F f (some e) g) :
    StartRealised program F f (some (.expression e)) g := by
  intro s t hcode hs hM stack x hx
  cases hcode with
  | expression hcode =>
    have hemits := hcode.emits
    exact ⟨hs.emits hemits, hemits.names ▸ List.suffix_rfl, (he hcode hs hM stack x hx).2⟩

theorem StartRealised.declare (hds : LocalDeclaration.ListRealised program F f ds g) :
    StartRealised program F f (some (.declare ds)) g := by
  intro s t hcode hs hM stack x hx
  cases hcode with
  | declare hcode => exact hds hcode hs hM stack x hx

theorem Realised.forLoop {start : Option Body} {condition : Option Expression}
    (hbody : body.isStatement = true) (hstart : StartRealised program F f start g)
    (hrounds : RoundsRealised program F g condition update body flow (inner ++ h))
    (hlength : h.length = f.length) :
    (Body.forLoop start condition update body).Realised program F f flow h := by
  intro s t hcode hs hM hopen stack x hx
  cases hcode with
  | @forLoop _ b a u v w y t _ _ _ _ hscode ha htest hcode hw hupdate ht =>
    have htM : t.assembler.method.Extends F.method := hM
    have hjM := ht.emits.extends htM
    have hyM := (Scope.emits_single y _ rfl).extends hjM
    have hwM := hupdate.emits.extends hyM
    have hvM : v.assembler.method.Extends F.method := hw.emits.extends hwM
    have huM : u.assembler.method.Extends F.method := hcode.grows.extends hvM
    have haM := htest.emits.extends huM
    have hround : b.Emits a := (Scope.emits_reserve b 3).trans ha.emits
    have hnext : b.Emits w := hround.trans (htest.emits.trans
      ((hcode.emits body rfl hbody).closeLoop.trans hw.emits))
    obtain ⟨hbs, hsuffix, z, hxz, hz⟩ := hstart hscode hs.openBlock (hround.extends haM) stack x hx
    have hback : F.method.body.labels.offset? b.nextLabel = some a.offset := by
      rw [ha.offset]
      exact ha.target haM
    have hover : F.method.body.labels.offset? (b.nextLabel + 2) = some t.offset := by
      rw [ht.offset]
      exact ht.target htM
    let l : Loop program F b.names condition update body := {
      test := a
      start := u
      stop := v
      next := w
      last := y
      labels := ⟨b.nextLabel + 2, b.nextLabel + 1⟩
      exit := t.offset
      test_sound := hbs.emits hround
      test_names := hround.names
      decides := htest.decides huM hover
      start_sound := (hbs.emits hround).emits htest.emits
      start_names := (hround.trans htest.emits).names
      start_open := htest.isTerminated ha.isTerminated
      code := hcode
      stop_extends := hvM
      stop_leads := fun _ _ => by
        rw [hw.offset]
        exact .refl _
      exit_target := hover
      next_target := by
        rw [hw.offset]
        exact hw.target hwM
      next_sound := hbs.emits hnext
      next_names := hnext.names
      update_code := hupdate
      last_extends := hyM
      last_leads := fun _ _ => Point.leads_branch (Scope.hasCode_append hjM).head hback }
    have hza : z.At F ⟨b.names, g, l.test.offset, stack⟩ := by
      show z.At F ⟨b.names, g, a.offset, stack⟩
      rw [ha.offset]
      exact hz
    have hends := ((hrounds l stack z hza).after hxz).drop hsuffix (hlength.trans hx.holds.length)
    exact ⟨fun _ => ht.isTerminated, hends.of_nil⟩

end Body

end ManagedC
