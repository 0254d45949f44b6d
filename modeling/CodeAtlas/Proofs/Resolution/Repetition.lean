import CodeAtlas.Proofs.Resolution.Record

/-!
# Questions that are asked again

A question that the memory holds leaves the memory as it is, so questions that were all asked
before change nothing (`after_of_holds`).

An action is `Steady` if neither its result nor the questions it asks depend on the memory. What a
steady action leaves behind is the memory of having asked its questions, so a second run of it
adds nothing, no diagnostic either. Its questions come in a fixed order, while `Asks` says nothing
about order and leaves room between what is asked and what may be asked.
-/

namespace CodeAtlas.Resolution

variable {r : Resolver} {m : Memory} {asked : List Question} {q : Question}

/-! ## Questions that the memory holds -/

/-- The memory holds an answer to the question. -/
def Memory.Holds (m : Memory) (q : Question) : Prop := (m.answers[q]?).isSome

theorem resolve_of_holds (h : m.Holds q) : ((r.resolve q.1 q.2).run m).2 = m := by
  obtain ⟨result, hresult⟩ := Option.isSome_iff_exists.mp h
  rw [resolve_of_remembered hresult]

theorem holds_resolve (r : Resolver) (m : Memory) (q : Question) :
    ((r.resolve q.1 q.2).run m).2.Holds q := by
  by_cases h : m.Holds q
  · rw [resolve_of_holds h]
    exact h
  · rw [resolve_of_new (Option.not_isSome_iff_eq_none.mp h)]
    simp [Memory.Holds]

theorem Memory.Holds.resolve (h : m.Holds q) (p : Question) :
    ((r.resolve p.1 p.2).run m).2.Holds q := by
  by_cases hp : m.Holds p
  · rw [resolve_of_holds hp]
    exact h
  · rw [resolve_of_new (Option.not_isSome_iff_eq_none.mp hp)]
    unfold Memory.Holds at h ⊢
    simp only [Std.ExtTreeMap.getElem?_insert]
    split
    · rfl
    · exact h

theorem Memory.Holds.after (h : m.Holds q) (asked : List Question) : (r.after m asked).Holds q := by
  unfold Resolver.after
  induction asked generalizing m with
  | nil => exact h
  | cons p asked ih => exact ih (h.resolve p)

theorem holds_after (r : Resolver) (m : Memory) (asked : List Question) :
    ∀ q ∈ asked, (r.after m asked).Holds q := by
  induction asked generalizing m with
  | nil => exact fun _ h => absurd h List.not_mem_nil
  | cons p asked ih =>
    exact List.forall_mem_cons.mpr ⟨(holds_resolve r m p).after asked, ih _⟩

/-- Questions that were all asked before change nothing, not even the diagnostics. -/
theorem after_of_holds (h : ∀ q ∈ asked, m.Holds q) : r.after m asked = m := by
  induction asked with
  | nil => rfl
  | cons p asked ih =>
    obtain ⟨first, rest⟩ := List.forall_mem_cons.mp h
    have kept : r.after m (p :: asked) = r.after ((r.resolve p.1 p.2).run m).2 asked := rfl
    rw [kept, resolve_of_holds first]
    exact ih rest

/-! ## Steady actions -/

/-- From every faithful memory the action yields the same result and asks the same questions. -/
def Steady (r : Resolver) {α : Type} (action : StateM Memory α) : Prop :=
  ∃ result asked, ∀ m : Memory, m.Faithful r → action.run m = (result, r.after m asked)

section Steady

variable {α β : Type}

theorem steady_pure (a : α) : Steady r (pure a) := ⟨a, [], fun _ _ => rfl⟩

theorem steady_resolve (importer specifier : String) : Steady r (r.resolve importer specifier) :=
  ⟨(r.answer importer specifier).1, [(importer, specifier)], fun _ hm =>
    Prod.ext (hm.resolve importer specifier).1 rfl⟩

/-- Steady actions in a row are steady, since the first yields the same result from every memory. -/
theorem Steady.bind {x : StateM Memory α} {f : α → StateM Memory β} (hx : Steady r x)
    (hf : ∀ a, Steady r (f a)) : Steady r (x >>= f) := by
  obtain ⟨a, asked, first⟩ := hx
  obtain ⟨b, further, second⟩ := hf a
  refine ⟨b, asked ++ further, fun m hm => ?_⟩
  rw [StateT.run_bind, first m hm, after_append]
  exact second _ (hm.after asked)

theorem steady_mapM {f : α → StateM Memory β} (h : ∀ a, Steady r (f a)) (as : List α) :
    Steady r (as.mapM f) := by
  induction as with
  | nil => exact steady_pure []
  | cons a as ih =>
    rw [List.mapM_cons]
    exact (h a).bind fun b => ih.bind fun bs => steady_pure (b :: bs)

end Steady

end CodeAtlas.Resolution
