import ManagedC.Proofs.Memory.Conserved

/-!
# Blocks that were given back

A block that was given back stays so: it is lasting (`Store.lasting_freed`), so the steps of runs keep
it, those that fault too, and whatever else comes later. Main statement: `Store.Later.freed`.
-/

namespace ManagedC

/-- The block was given back. -/
def Heap.Freed (id : Nat) (h : Heap) : Prop := h.blocks[id]? = some .freed

/-- The block of the store was given back. -/
def Store.Freed (id : Nat) (s : Store) : Prop := s.heap.Freed id

variable {id : Nat}

/-- The machine makes no use of a block that was given back. -/
theorem Store.lasting_freed (id : Nat) : Store.Lasting (Store.Freed id) where
  objects _ _ hs := hs
  bytes s other new hlive hs := by
    obtain ⟨bytes, hlive⟩ := hlive
    unfold Freed Heap.Freed at hs ⊢
    by_cases heq : other = id
    · rw [heq, hs] at hlive
      cases hlive
    · exact (Array.getElem?_setIfInBounds_ne heq).trans hs
  made s bytes hs := by
    unfold Freed Heap.Freed at hs ⊢
    obtain ⟨hlt, -⟩ := Array.getElem?_eq_some_iff.1 hs
    exact (Array.getElem?_push_lt hlt).trans ((Array.getElem?_eq_getElem hlt).symm.trans hs)
  givenBack s other hlive hs := by
    unfold Freed Heap.Freed at hs ⊢
    rw [blocks_giveBack_single]
    by_cases heq : other = id
    · rw [if_pos heq, if_pos (lt_size_of_live hlive)]
    · rw [if_neg heq, hs]
  recorded _ _ hs := hs
  depth _ _ hs := hs

/-- A step keeps a block that was given back. -/
theorem Run.StepsTo.freed {program : Module} {limits : Limits} {r : Run} {p : Progress}
    (h : r.StepsTo program limits p) (hr : r.store.Freed id) : p.store.Freed id := by
  have hkeeps := h.conserves (Store.lasting_freed id) (Store.lasting_freed id)
    (fun _ hs => hs) hr
  rwa [ite_self] at hkeeps

/-- The store at a later time: the machine makes steps of runs, and the host adds its strings and begins
calls. -/
inductive Store.Later (s : Store) : Store → Prop where
  | refl : Later s s
  | step {program : Module} {limits : Limits} {r : Run} :
    Later s r.store → Later s (r.step program limits).store
  | enter {t : Store} : Later s t → Later s t.opened
  | start {t : Store} {args : List String} : Later s t → Later s (Session.hostArguments args t).2

namespace Store.Later

variable {s t : Store}

/-- A block that was given back stays so. -/
theorem freed (h : s.Later t) (hs : s.Freed id) : t.Freed id := by
  induction h with
  | refl => exact hs
  | step _ ih => exact (Run.stepsTo_step _).freed ih
  | enter _ ih => exact ih
  | start _ ih => exact (Store.lasting_freed id).hostArguments _ ih

theorem leads {program : Module} {limits : Limits} {r r' : Run} (h : r.Leads program limits r')
    (hs : s.Later r.store) : s.Later r'.store := by
  induction h with
  | refl => exact hs
  | @step r r' _ _ hstep _ ih =>
    have hlater : s.Later (r.step program limits).store := .step hs
    rw [hstep] at hlater
    exact ih hlater

theorem ends {program : Module} {limits : Limits} {p : Progress} {o : Ending}
    (h : p.Ends program limits o) (hs : s.Later p.store) : s.Later o.2.1 := by
  induction h with
  | done => exact hs
  | more _ ih => exact ih (.step hs)

end Store.Later

namespace Session

variable {u w : Session} {s : Store}

theorem later_invoke {m : Method} {arguments : List Value} {result : CallResult}
    (h : u.invoke m arguments = some (result, w)) (hs : s.Later u.store) : s.Later w.store := by
  unfold invoke at h
  split at h
  · cases h
    exact hs
  · obtain ⟨⟨result', store, steps⟩, hrun, hpair⟩ := Option.map_eq_some_iff.1 h
    cases hpair
    exact .ends (Progress.Ends.of_iterate hrun) (.enter hs)

/-- After a call of a method it is later. -/
theorem later_call {name : String} {arguments : List Value} {result : CallResult}
    (h : u.call name arguments = some (result, w)) (hs : s.Later u.store) : s.Later w.store := by
  unfold call at h
  split at h
  · cases h
    exact hs
  · exact later_invoke h hs

/-- After a start of the program it is later. -/
theorem later_runEntry {args : List String} {result : Except Failure Int32}
    (h : u.runEntry args = some (result, w)) (hs : s.Later u.store) : s.Later w.store := by
  unfold runEntry at h
  split at h
  · cases h
    exact hs
  · split at h
    · obtain ⟨⟨result', u⟩, hinvoke, hpair⟩ := Option.map_eq_some_iff.1 h
      cases hpair
      exact later_invoke hinvoke hs
    · split at h
      · obtain ⟨⟨result', u⟩, hinvoke, hpair⟩ := Option.map_eq_some_iff.1 h
        cases hpair
        exact later_invoke hinvoke (.start hs)
      · cases h
        exact hs
    · cases h
      exact hs

end Session

end ManagedC
