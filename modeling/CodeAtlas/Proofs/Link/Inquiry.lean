import CodeAtlas.Proofs.Link.Origin
import CodeAtlas.Proofs.Resolution.Record
import CodeAtlas.Proofs.Script.Specifiers
import Mathlib

/-!
# The questions of a search

A search for an origin changes the memory of the resolver by asking questions and in no other way
(`Inquires`). It asks for specifiers of interfaces alone (`inquires_originWithin`), and the search
for the origin of an import asks for the specifier of that import first (`asks_bindingOrigin`).
-/

namespace CodeAtlas.Link.Landscape

open CodeAtlas.Resolution CodeAtlas.Script CodeAtlas.Text

/-- Whatever its state, the step asks some questions, none that is not `allowed`, and leaves the
memory of having asked them. -/
def Inquires (l : Landscape) (allowed : Question → Prop) (action : Searching (Option NodeId)) :
    Prop :=
  ∀ s : Search, ∃ asked : List Question, (∀ q ∈ asked, allowed q) ∧
    (action.run s).2.memory = l.resolver.after s.memory asked

/-- The specifiers of all interfaces may be asked for by the modules they belong to. -/
def Admits (l : Landscape) (allowed : Question → Prop) : Prop :=
  ∀ (path : String) (interface : ModuleInterface), l.interfaces[path]? = some interface →
    interface.DrawsOnlyOn fun specifier => allowed (path, specifier)

variable {l : Landscape} {allowed : Question → Prop}

/-! ## Steps -/

theorem inquires_pure (result : Option NodeId) : l.Inquires allowed (pure result) :=
  fun _ => ⟨[], fun _ h => absurd h List.not_mem_nil, rfl⟩

/-- Steps in a row ask the questions of those that are taken, one after the other. -/
theorem inquires_firstOf {as : List (Searching (Option NodeId))}
    (h : ∀ a ∈ as, l.Inquires allowed a) : l.Inquires allowed (firstOf id as) := by
  induction as with
  | nil => exact inquires_pure none
  | cons a as ih =>
    obtain ⟨first, rest⟩ := List.forall_mem_cons.mp h
    intro s
    obtain ⟨asked, only, run⟩ := first s
    rw [run_firstOf_cons]
    rcases ha : a.run s with ⟨_ | found, s'⟩ <;> rw [ha] at run
    · obtain ⟨further, only', run'⟩ := ih rest s'
      refine ⟨asked ++ further, ?_, ?_⟩
      · exact fun q hq => (List.mem_append.mp hq).elim (only q) (only' q)
      · rw [after_append, ← run]
        exact run'
    · exact ⟨asked, only, run⟩

/-- The origin of an import is searched for by asking for its specifier, and then by the questions
of a search in the other module. -/
theorem exists_asked_bindingOriginWith {origin : String → String → Searching (Option NodeId)}
    (horigin : ∀ path name, l.Inquires allowed (origin path name)) {path : String}
    {binding : ImportBinding} (hbinding : allowed (path, binding.specifier)) (s : Search) :
    ∃ asked : List Question, (path, binding.specifier) ∈ asked ∧ (∀ q ∈ asked, allowed q) ∧
      ((l.bindingOriginWith origin path binding).run s).2.memory =
        l.resolver.after s.memory asked := by
  rw [run_bindingOriginWith]
  dsimp only
  have own : l.resolver.after s.memory [(path, binding.specifier)] =
      ((l.resolver.resolve path binding.specifier).run s.memory).2 := rfl
  cases ((l.resolver.resolve path binding.specifier).run s.memory).1 with
  | none =>
    refine ⟨[(path, binding.specifier)], List.mem_singleton_self _, ?_, own.symm⟩
    simpa using hbinding
  | some target =>
    cases exportName binding.imported with
    | none =>
      refine ⟨[(path, binding.specifier)], List.mem_singleton_self _, ?_, own.symm⟩
      simpa using hbinding
    | some name =>
      obtain ⟨further, only, run⟩ := horigin target name
        { s with memory := ((l.resolver.resolve path binding.specifier).run s.memory).2 }
      refine ⟨(path, binding.specifier) :: further, List.mem_cons_self, ?_, run⟩
      exact List.forall_mem_cons.mpr ⟨hbinding, only⟩

/-- Following an import asks for its own specifier and then for what the search in the other module
asks for. -/
theorem inquires_bindingOriginWith {origin : String → String → Searching (Option NodeId)}
    (horigin : ∀ path name, l.Inquires allowed (origin path name)) {path : String}
    {binding : ImportBinding} (hbinding : allowed (path, binding.specifier)) :
    l.Inquires allowed (l.bindingOriginWith origin path binding) := by
  intro s
  obtain ⟨asked, -, only, run⟩ := exists_asked_bindingOriginWith horigin hbinding s
  exact ⟨asked, only, run⟩

/-- The steps of a module ask for specifiers of its interface only. -/
theorem inquires_steps {origin : String → String → Searching (Option NodeId)}
    (horigin : ∀ path name, l.Inquires allowed (origin path name)) {path : String}
    {interface : ModuleInterface}
    (h : interface.DrawsOnlyOn fun specifier => allowed (path, specifier)) (name : String) :
    ∀ a ∈ l.steps origin interface path name, l.Inquires allowed a := by
  unfold steps
  refine List.forall_mem_append.mpr ⟨List.forall_mem_append.mpr ⟨?reexported, ?starred⟩, ?exported⟩
  case reexported =>
    cases hre : interface.reexports[name]? with
    | none => simp
    | some reexport =>
      have source := h.reexports name reexport hre
      cases reexport with
      | named specifier inner => simpa using inquires_bindingOriginWith horigin source
      | everything specifier => simpa using inquires_bindingOriginWith horigin source
  case starred =>
    split
    · simp
    · intro a ha
      obtain ⟨specifier, hs, rfl⟩ := List.mem_map.mp ha
      exact inquires_bindingOriginWith horigin (h.starSources specifier hs)
  case exported =>
    cases interface.localExports[name]? with
    | none => simp
    | some inner =>
      dsimp only
      cases himport : interface.imports[inner]? with
      | some binding =>
        simpa using inquires_bindingOriginWith horigin (h.imports inner binding himport)
      | none =>
        dsimp only
        split
        · simp
        · simpa using inquires_pure _

/-- A search asks for specifiers of interfaces alone, by induction on the fuel. -/
theorem inquires_originWithin (h : l.Admits allowed) (fuel : Nat) (path name : String) :
    l.Inquires allowed (l.originWithin fuel path name) := by
  induction fuel generalizing path name with
  | zero => exact inquires_pure none
  | succ fuel ih =>
    intro s
    rw [run_originWithin]
    split
    · exact inquires_pure none s
    · have steps : ∀ a ∈ l.stepsAt (l.originWithin fuel) path name ++
          [pure (l.existing (.symbol path name))], l.Inquires allowed a := by
        refine List.forall_mem_append.mpr ⟨?_, by simpa using inquires_pure _⟩
        unfold stepsAt
        cases hinterface : l.interfaces[path]? with
        | none => simp
        | some interface => exact inquires_steps ih (h path interface hinterface) name
      exact inquires_firstOf steps
        { s with visited := s.visited.insert (path ++ "#" ++ name) }

/-! ## Searches -/

theorem asks_origin (h : l.Admits allowed) (path name : String) :
    Asks l.resolver (fun _ => False) allowed (l.origin path name) := by
  intro m
  obtain ⟨asked, only, run⟩ := inquires_originWithin h l.searchBound path name ⟨m, ∅⟩
  exact ⟨asked, fun _ hq => hq.elim, only, run⟩

/-- Looking for the origin of an import asks for its specifier in any case, even if the search ends
at once. -/
theorem asks_bindingOrigin (h : l.Admits allowed) {path : String} {binding : ImportBinding}
    (hbinding : allowed (path, binding.specifier)) :
    Asks l.resolver (· = (path, binding.specifier)) allowed (l.bindingOrigin path binding) := by
  intro m
  obtain ⟨asked, own, only, run⟩ := exists_asked_bindingOriginWith
    (inquires_originWithin h l.searchBound) hbinding ⟨m, ∅⟩
  exact ⟨asked, fun q hq => hq ▸ own, only, run⟩

/-- A search leaves the memory that some more questions leave. -/
theorem exists_further {α : Type} {action : StateM Memory α} {needed : Question → Prop}
    {r : Resolver} (h : Asks r needed allowed action) (asked : List Question) :
    ∃ further : List Question, (action.run (r.after ∅ asked)).2 = r.after ∅ (asked ++ further) := by
  obtain ⟨further, -, -, run⟩ := h (r.after ∅ asked)
  exact ⟨further, by rw [run, after_append]⟩

/-! ## A resolver at work -/

/-- **Every question is answered by the rule and reported once.** Whatever questions are put to a
new resolver, each is answered as the rule answers it alone, and only with known files. The memory
has one entry for each distinct question, and the diagnostics are those of the distinct questions
in the order of first occurrence, so an import into another package is reported once. A search,
over any graph and any interfaces, amounts to some more questions, so it makes no difference
whether a question is put by hand or in following re-exports. -/
theorem resolve_once {known : List String} {aliases : AliasMap} {r : Resolver}
    (hr : Resolver.new known aliases = .ok r) (asked : List Question) :
    ∃ memory : Memory,
      (asked.mapM fun q => r.resolve q.1 q.2).run ∅ =
        (asked.map fun q => (r.answer q.1 q.2).1, memory) ∧
      (∀ q ∈ asked, ∀ path, (r.answer q.1 q.2).1 = some path → path ∈ known) ∧
      memory.answers.size = asked.eraseDups.length ∧
      memory.diagnostics = asked.eraseDups.flatMap (fun q => (r.answer q.1 q.2).2) ∧
      (∀ q ∈ asked, ∀ path, r.target q.1 q.2 = .foreign path →
        memory.diagnostics.filter (·.reports q.1 q.2) =
          [.illegalCrossPackageImport q.1 q.2 path]) ∧
      ∀ l : Landscape, l.resolver = r →
        (∀ path name, ∃ further : List Question, ((l.origin path name).run memory).2 =
          (((asked ++ further).mapM fun q => r.resolve q.1 q.2).run ∅).2) ∧
        ∀ path binding, ∃ further : List Question, ((l.bindingOrigin path binding).run memory).2 =
          (((asked ++ further).mapM fun q => r.resolve q.1 q.2).run ∅).2 := by
  have records : (r.after ∅ asked).Records r [] asked := Memory.records_after r [] asked
  have run : ∀ qs : List Question, (qs.mapM fun q => r.resolve q.1 q.2).run ∅ =
      (qs.map fun q => (r.answer q.1 q.2).1, r.after ∅ qs) :=
    (Memory.faithful_new []).run_mapM_resolve
  refine ⟨r.after ∅ asked, run asked, ?files, records.size_answers, records.diagnostics, ?once,
    ?searches⟩
  case files =>
    intro q _ path hpath
    have hknown := mem_known_of_answer hpath
    rw [(ofMap_of_new hr).2] at hknown
    simpa using hknown
  case once =>
    intro q hq path htarget
    rw [records.filter_reports (by simp), if_pos hq, answer_of_foreign htarget]
  case searches =>
    rintro l rfl
    have free : l.Admits fun _ => True := fun _ _ _ => by constructor <;> simp
    simp only [run]
    exact ⟨fun path name => exists_further (asks_origin free path name) asked,
      fun path binding => exists_further (asks_bindingOrigin free trivial) asked⟩

/-- Two packages. -/
def twoPackages : AliasMap := .ofList [("@a", "packages/a/src"), ("@b", "packages/b/src")]

/-- The table of the two packages. -/
def twoPackagesTable : AliasTable :=
  ⟨[⟨"@a", "packages/a/src"⟩, ⟨"@b", "packages/b/src"⟩], ["packages/a", "packages/b"]⟩

/-- An import into the other package three times, and one by its alias in between. -/
def repeatedQuestions : List Question :=
  [("packages/a/src/x.ts", "../../b/src/y"), ("packages/a/src/x.ts", "@b/y"),
    ("packages/a/src/x.ts", "../../b/src/y"), ("packages/a/src/x.ts", "../../b/src/y")]

/-- The import is refused each time and reported once. -/
theorem resolve_once_repeated :
    ∃ r memory, Resolver.new ["packages/a/src/x.ts", "packages/b/src/y.ts"] twoPackages = .ok r ∧
      (repeatedQuestions.mapM fun q => r.resolve q.1 q.2).run ∅ =
        ([none, some "packages/b/src/y.ts", none, none], memory) ∧
      memory.answers.size = 2 ∧
      memory.diagnostics =
        [.illegalCrossPackageImport "packages/a/src/x.ts" "../../b/src/y" "packages/b/src/y"] := by
  have haliases : AliasTable.ofMap twoPackages = .ok twoPackagesTable := by cbv
  have hr := new_of_ofMap haliases ["packages/a/src/x.ts", "packages/b/src/y.ts"]
  have answers : repeatedQuestions.map (fun q =>
      (Resolver.answer ⟨.ofList ["packages/a/src/x.ts", "packages/b/src/y.ts"], twoPackagesTable⟩
        q.1 q.2).1) = [none, some "packages/b/src/y.ts", none, none] := by
    decide
  obtain ⟨memory, run, -, size, diagnostics, -⟩ := resolve_once hr repeatedQuestions
  rw [answers] at run
  refine ⟨_, memory, hr, run, size.trans ?_, diagnostics.trans ?_⟩
  all_goals decide

end CodeAtlas.Link.Landscape
