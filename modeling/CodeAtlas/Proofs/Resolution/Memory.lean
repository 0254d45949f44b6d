import CodeAtlas.Resolution.Resolver

/-!
# The memory of a resolver

A memory is faithful if it remembers nothing but answers of the resolver. Every question leaves a
faithful memory faithful and is answered by the rule `Resolver.answer`, remembered or not
(`Faithful.resolve`). So an answer never depends on what was asked before, nor does anything that
is made of answers (`Answers`).
-/

namespace CodeAtlas.Resolution

variable {r : Resolver} {m : Memory} {importer specifier : String}

/-- What the memory holds are answers of the resolver. -/
def Memory.Faithful (r : Resolver) (m : Memory) : Prop :=
  ∀ importer specifier result, m.answers[(importer, specifier)]? = some result →
    result = (r.answer importer specifier).1

/-- The memory after some questions, each a pair of importer and specifier. -/
def Resolver.after (r : Resolver) (m : Memory) (questions : List (String × String)) : Memory :=
  questions.foldl (fun m q => ((r.resolve q.1 q.2).run m).2) m

theorem resolve_of_remembered {result : Option String}
    (h : m.answers[(importer, specifier)]? = some result) :
    (r.resolve importer specifier).run m = (result, m) := by
  simp [Resolver.resolve, StateT.run_bind, h]
  rfl

theorem resolve_of_new (h : m.answers[(importer, specifier)]? = none) :
    (r.resolve importer specifier).run m =
      ((r.answer importer specifier).1,
        ⟨m.answers.insert (importer, specifier) (r.answer importer specifier).1,
          m.diagnostics ++ (r.answer importer specifier).2⟩) := by
  simp [Resolver.resolve, StateT.run_bind, h]
  rfl

namespace Memory

theorem faithful_new (diagnostics : List Diagnostic) : Faithful r ⟨∅, diagnostics⟩ := by
  intro importer specifier result h
  simp at h

/-- A faithful memory answers by the rule, whether it remembers the question or not, and is faithful
afterwards. A remembered answer is the rule's by faithfulness; a new one is written down as the rule
gives it. -/
theorem Faithful.resolve (hm : m.Faithful r) (importer specifier : String) :
    ((r.resolve importer specifier).run m).1 = (r.answer importer specifier).1 ∧
      Faithful r ((r.resolve importer specifier).run m).2 := by
  cases h : m.answers[(importer, specifier)]? with
  | some result =>
    rw [resolve_of_remembered h]
    exact ⟨hm importer specifier result h, hm⟩
  | none =>
    rw [resolve_of_new h]
    refine ⟨rfl, ?_⟩
    intro i s result hr
    simp only [Std.ExtTreeMap.getElem?_insert, Std.LawfulEqCmp.compare_eq_iff_eq] at hr
    by_cases he : (importer, specifier) = (i, s)
    · cases he
      rw [if_pos rfl] at hr
      exact (Option.some.inj hr).symm
    · rw [if_neg he] at hr
      exact hm i s result hr

theorem Faithful.after (hm : m.Faithful r) (questions : List (String × String)) :
    Faithful r (r.after m questions) := by
  unfold Resolver.after
  induction questions generalizing m with
  | nil => exact hm
  | cons q questions ih => exact ih (hm.resolve q.1 q.2).2

end Memory

/-! ## Results that do not depend on the memory -/

/-- The action yields `result` from every faithful memory, and leaves a faithful memory. -/
def Answers (r : Resolver) {α : Type} (action : StateM Memory α) (result : α) : Prop :=
  ∀ m : Memory, m.Faithful r → (action.run m).1 = result ∧ Memory.Faithful r (action.run m).2

variable {α β : Type}

theorem answers_pure (a : α) : Answers r (pure a) a := fun _ hm => ⟨rfl, hm⟩

theorem answers_resolve (importer specifier : String) :
    Answers r (r.resolve importer specifier) (r.answer importer specifier).1 :=
  fun _ hm => hm.resolve importer specifier

/-- Two actions that do not depend on the memory, one after the other, do not depend on it either.
The second one starts from the memory that the first one leaves, which is faithful. -/
theorem Answers.bind {x : StateM Memory α} {f : α → StateM Memory β} {a : α} {b : β}
    (hx : Answers r x a) (hf : Answers r (f a) b) : Answers r (x >>= f) b := by
  intro m hm
  obtain ⟨hresult, hkept⟩ := hx m hm
  rw [StateT.run_bind]
  change ((f (x.run m).1).run (x.run m).2).1 = b ∧
    Memory.Faithful r ((f (x.run m).1).run (x.run m).2).2
  rw [hresult]
  exact hf _ hkept

theorem answers_mapM {f : α → StateM Memory β} {g : α → β} (h : ∀ a, Answers r (f a) (g a))
    (as : List α) : Answers r (as.mapM f) (as.map g) := by
  induction as with
  | nil => exact answers_pure []
  | cons a as ih =>
    rw [List.mapM_cons]
    exact (h a).bind (ih.bind (answers_pure _))

/-! ## Files -/

theorem mem_known_of_probe {known : Text.TextSet} {base path : String}
    (h : probe known base = some path) : path ∈ known :=
  Std.ExtTreeSet.contains_iff_mem.mp (List.find?_some h)

theorem mem_candidates_of_probe {known : Text.TextSet} {base path : String}
    (h : probe known base = some path) : path ∈ candidates base := by
  rw [probe] at h
  exact List.mem_of_find?_eq_some h

/-- Every answer is a known file: the rule ends in a probe, whatever path it probes. -/
theorem mem_known_of_answer {path : String} (h : (r.answer importer specifier).1 = some path) :
    path ∈ r.known := by
  unfold Resolver.answer at h
  split at h
  · cases h
  · cases h
  · exact mem_known_of_probe h

end CodeAtlas.Resolution
