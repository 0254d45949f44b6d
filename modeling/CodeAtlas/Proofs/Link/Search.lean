import Mathlib.Data.List.Basic
import Mathlib.Tactic.Tauto

/-!
# Ordered searches with and without shared marks

A search follows leads in order until one of them yields a node. A lead is a node, which is
yielded if it is there, or a place with leads of its own. Two ways to keep a search from running
in circles are compared:

* `PlainSearch` refuses a place only while it stands on the trail to the current place;
* `SharedSearch` marks every place it enters and never enters a marked place again.

They find the same (`SharedSearch.plain`). The invariant is `Spent`: a marked place off the trail
has been given up, so that none of its nodes is there and all places it leads to are marked. A
plain search that enters such a place again stays among the marked places and finds nothing
(`Spent.plain_none`), which is why a place that failed inside a cycle need not be retried.
-/

namespace CodeAtlas.Link

/-- What a search follows: a place with leads of its own, or a node. -/
inductive Lead (P N : Type) where
  | place (p : P)
  | node (id : N)

variable {P N : Type} {leads : P → List (Lead P N)} {present : N → Prop}

/-- The search that refuses the places on its trail. -/
inductive PlainSearch (leads : P → List (Lead P N)) (present : N → Prop) :
    List P → List (Lead P N) → Option N → Prop
  | nil {trail} : PlainSearch leads present trail [] none
  | present {trail rest id} : present id →
      PlainSearch leads present trail (.node id :: rest) (some id)
  | absent {trail rest id result} : ¬ present id → PlainSearch leads present trail rest result →
      PlainSearch leads present trail (.node id :: rest) result
  | found {trail rest p id} : p ∉ trail →
      PlainSearch leads present (p :: trail) (leads p) (some id) →
      PlainSearch leads present trail (.place p :: rest) (some id)
  | missed {trail rest p result} : p ∉ trail →
      PlainSearch leads present (p :: trail) (leads p) none →
      PlainSearch leads present trail rest result →
      PlainSearch leads present trail (.place p :: rest) result
  | refused {trail rest p result} : p ∈ trail → PlainSearch leads present trail rest result →
      PlainSearch leads present trail (.place p :: rest) result

/-- The search that refuses the places it has marked. The last argument holds the marks that the
search leaves behind. -/
inductive SharedSearch (leads : P → List (Lead P N)) (present : N → Prop) :
    List P → List (Lead P N) → Option N → List P → Prop
  | nil {seen} : SharedSearch leads present seen [] none seen
  | present {seen rest id} : present id →
      SharedSearch leads present seen (.node id :: rest) (some id) seen
  | absent {seen seen' rest id result} : ¬ present id →
      SharedSearch leads present seen rest result seen' →
      SharedSearch leads present seen (.node id :: rest) result seen'
  | found {seen seen' rest p id} : p ∉ seen →
      SharedSearch leads present (p :: seen) (leads p) (some id) seen' →
      SharedSearch leads present seen (.place p :: rest) (some id) seen'
  | missed {seen seen' seen'' rest p result} : p ∉ seen →
      SharedSearch leads present (p :: seen) (leads p) none seen' →
      SharedSearch leads present seen' rest result seen'' →
      SharedSearch leads present seen (.place p :: rest) result seen''
  | refused {seen seen' rest p result} : p ∈ seen →
      SharedSearch leads present seen rest result seen' →
      SharedSearch leads present seen (.place p :: rest) result seen'

/-- A chain of leads from a place to a node. -/
inductive Chain (leads : P → List (Lead P N)) : P → N → Prop
  | ends {p id} : .node id ∈ leads p → Chain leads p id
  | step {p q id} : .place q ∈ leads p → Chain leads q id → Chain leads p id

/-! ## Both searches are functions -/

/-- A plain search has at most one result, by induction on the search. -/
theorem PlainSearch.unique {trail : List P} {ls : List (Lead P N)} {r r' : Option N}
    (h : PlainSearch leads present trail ls r) (h' : PlainSearch leads present trail ls r') :
    r = r' := by
  induction h generalizing r' with
  | nil =>
    cases h'
    rfl
  | present hid =>
    cases h' with
    | present => rfl
    | absent hn => exact absurd hid hn
  | absent hid _ ih =>
    cases h' with
    | present hp => exact absurd hp hid
    | absent _ rest => exact ih rest
  | found hp _ ih =>
    cases h' with
    | found _ inner => exact ih inner
    | missed _ inner _ => exact absurd (ih inner) (by simp)
    | refused hm _ => exact absurd hm hp
  | missed hp _ _ ihInner ihRest =>
    cases h' with
    | found _ inner => exact absurd (ihInner inner) (by simp)
    | missed _ _ rest => exact ihRest rest
    | refused hm _ => exact absurd hm hp
  | refused hp _ ih =>
    cases h' with
    | found hn _ => exact absurd hp hn
    | missed hn _ _ => exact absurd hp hn
    | refused _ rest => exact ih rest

/-- A shared search takes no mark away. -/
theorem SharedSearch.mono {seen seen' : List P} {ls : List (Lead P N)} {r : Option N}
    (h : SharedSearch leads present seen ls r seen') : seen ⊆ seen' := by
  induction h with
  | nil => exact List.Subset.refl _
  | present => exact List.Subset.refl _
  | absent _ _ ih => exact ih
  | found _ _ ih => exact List.Subset.trans (List.subset_cons_self _ _) ih
  | missed _ _ _ ihInner ihRest =>
    exact List.Subset.trans (List.subset_cons_self _ _) (List.Subset.trans ihInner ihRest)
  | refused _ _ ih => exact ih

/-! ## Leads in a row -/

theorem SharedSearch.append_some {seen seen' : List P} {ls : List (Lead P N)} {id : N}
    (h : SharedSearch leads present seen ls (some id) seen') (more : List (Lead P N)) :
    SharedSearch leads present seen (ls ++ more) (some id) seen' := by
  generalize hr : some id = r at h
  induction h with
  | nil => cases hr
  | present hid =>
    cases hr
    exact .present hid
  | absent hid _ ih => exact .absent hid (ih hr)
  | found hp inner =>
    cases hr
    exact .found hp inner
  | missed hp inner _ _ ih => exact .missed hp inner (ih hr)
  | refused hp _ ih => exact .refused hp (ih hr)

/-- A search along two lists of leads goes on with the marks of the first list, if that yields
nothing. -/
theorem SharedSearch.append_none {seen seen' seen'' : List P} {ls more : List (Lead P N)}
    {r : Option N} (h : SharedSearch leads present seen ls none seen')
    (hmore : SharedSearch leads present seen' more r seen'') :
    SharedSearch leads present seen (ls ++ more) r seen'' := by
  generalize hn : none = r' at h
  induction h with
  | nil => exact hmore
  | present => cases hn
  | absent hid _ ih => exact .absent hid (ih hmore hn)
  | found => cases hn
  | missed hp inner _ _ ih => exact .missed hp inner (ih hmore hn)
  | refused hp _ ih => exact .refused hp (ih hmore hn)

/-! ## Places that were given up -/

/-- One more place on the trail is one place less that a search can enter. -/
theorem length_filter_cons_lt [BEq P] [LawfulBEq P] {l t : List P} {q : P} (hl : q ∈ l)
    (ht : q ∉ t) : (l.filter (· ∉ q :: t)).length < (l.filter (· ∉ t)).length := by
  have split : l.filter (· ∉ q :: t) = (l.filter (· ∉ t)).filter (· != q) := by
    rw [List.filter_filter]
    congr 1
    funext p
    by_cases hp : p = q <;> simp [hp]
  rw [split, List.length_filter_lt_length_iff_exists]
  exact ⟨q, List.mem_filter.mpr ⟨hl, by simpa using ht⟩, by simp⟩

/-- Following a lead yields nothing that the marks do not already cover. -/
def Exhausted (present : N → Prop) (seen : List P) : Lead P N → Prop
  | .place q => q ∈ seen
  | .node id => ¬ present id

theorem Exhausted.mono {seen seen' : List P} (hsub : seen ⊆ seen') {lead : Lead P N}
    (h : Exhausted present seen lead) : Exhausted present seen' lead := by
  cases lead with
  | place q => exact hsub h
  | node id => exact h

/-- The trail is marked, and every marked place off the trail has been given up. -/
structure Spent (leads : P → List (Lead P N)) (present : N → Prop) (trail seen : List P) :
    Prop where
  marked : trail ⊆ seen
  closed : ∀ p ∈ seen, p ∉ trail → ∀ lead ∈ leads p, Exhausted present seen lead

/-- A place that is entered is on the trail and marked, and nothing else has changed. -/
theorem Spent.enter {trail seen : List P} (h : Spent leads present trail seen) (p : P) :
    Spent leads present (p :: trail) (p :: seen) where
  marked := List.cons_subset_cons p h.marked
  closed q hq hoff lead hlead := by
    have hqp : q ≠ p := fun he => hoff (he ▸ List.mem_cons_self)
    have hseen : q ∈ seen := (List.mem_cons.mp hq).resolve_left hqp
    have hoff : q ∉ trail := fun hm => hoff (List.mem_cons_of_mem p hm)
    exact (h.closed q hseen hoff lead hlead).mono (List.subset_cons_self p seen)

/-- Leaving a place whose leads are exhausted gives it up. -/
theorem Spent.leave {trail seen : List P} {p : P} (h : Spent leads present (p :: trail) seen)
    (hp : ∀ lead ∈ leads p, Exhausted present seen lead) : Spent leads present trail seen where
  marked := List.Subset.trans (List.subset_cons_self p trail) h.marked
  closed q hq hoff := by
    by_cases hqp : q = p
    · subst hqp
      exact hp
    · exact h.closed q hq (by simp [hqp, hoff])

/-- A plain search along exhausted leads finds nothing. The induction is on the number of marked
places off the trail, each of which the search can enter once. -/
theorem Spent.plain_none [DecidableEq P] {trail seen : List P}
    (h : Spent leads present trail seen) {trail' : List P} (hsub : trail ⊆ trail')
    {ls : List (Lead P N)} (hls : ∀ lead ∈ ls, Exhausted present seen lead) :
    PlainSearch leads present trail' ls none := by
  generalize hcount : (seen.filter (· ∉ trail')).length = count
  induction count using Nat.strongRecOn generalizing trail' ls with
  | _ count ih =>
    induction ls with
    | nil => exact .nil
    | cons lead ls ihLeads =>
      have rest := ihLeads fun l hl => hls l (List.mem_cons_of_mem _ hl)
      have hlead := hls lead List.mem_cons_self
      cases lead with
      | node id => exact .absent hlead rest
      | place q =>
        by_cases hq : q ∈ trail'
        · exact .refused hq rest
        · have fewer : (seen.filter (· ∉ q :: trail')).length < count :=
            hcount ▸ length_filter_cons_lt hlead hq
          have inner := ih _ fewer (List.Subset.trans hsub (List.subset_cons_self q trail'))
            (h.closed q hlead fun hm => hq (hsub hm)) rfl
          exact .missed hq inner rest

/-! ## The searches agree -/

/-- What a shared search finds a plain search finds, and one that finds nothing leaves its leads
exhausted and nothing open but the trail. -/
theorem SharedSearch.spent [DecidableEq P] {trail seen seen' : List P} {ls : List (Lead P N)}
    {r : Option N} (h : SharedSearch leads present seen ls r seen')
    (hs : Spent leads present trail seen) :
    PlainSearch leads present trail ls r ∧
      (r = none → Spent leads present trail seen' ∧
        ∀ lead ∈ ls, Exhausted present seen' lead) := by
  induction h generalizing trail with
  | nil => exact ⟨.nil, fun _ => ⟨hs, by simp⟩⟩
  | present hid => exact ⟨.present hid, fun hr => by cases hr⟩
  | absent hid _ ih =>
    obtain ⟨plain, after⟩ := ih hs
    refine ⟨.absent hid plain, fun hr => ?_⟩
    obtain ⟨spent, exhausted⟩ := after hr
    exact ⟨spent, List.forall_mem_cons.mpr ⟨hid, exhausted⟩⟩
  | found hp _ ih =>
    obtain ⟨plain, -⟩ := ih (hs.enter _)
    exact ⟨.found (fun hm => hp (hs.marked hm)) plain, fun hr => by cases hr⟩
  | missed hp inner rest ihInner ihRest =>
    obtain ⟨plainInner, afterInner⟩ := ihInner (hs.enter _)
    obtain ⟨spentInner, exhaustedInner⟩ := afterInner rfl
    obtain ⟨plain, after⟩ := ihRest (spentInner.leave exhaustedInner)
    refine ⟨.missed (fun hm => hp (hs.marked hm)) plainInner plain, fun hr => ?_⟩
    obtain ⟨spent, exhausted⟩ := after hr
    exact ⟨spent, List.forall_mem_cons.mpr
      ⟨rest.mono (inner.mono List.mem_cons_self), exhausted⟩⟩
  | @refused seen seen' ls p r hp rest ih =>
    obtain ⟨plain, after⟩ := ih hs
    refine ⟨?_, fun hr => ?_⟩
    · by_cases ht : p ∈ trail
      · exact .refused ht plain
      -- the shared search skips `p`, the plain one enters it again and comes back empty
      · have again := hs.plain_none (List.subset_cons_self p trail) (hs.closed p hp ht)
        exact .missed ht again plain
    · obtain ⟨spent, exhausted⟩ := after hr
      exact ⟨spent, List.forall_mem_cons.mpr ⟨rest.mono hp, exhausted⟩⟩

theorem spent_nil : Spent leads present [] [] where
  marked := List.Subset.refl _
  closed _ hp := absurd hp List.not_mem_nil

/-- The two searches find the same, when both begin without marks and without a trail. -/
theorem SharedSearch.plain [DecidableEq P] {ls : List (Lead P N)} {r : Option N} {seen : List P}
    (h : SharedSearch leads present [] ls r seen) : PlainSearch leads present [] ls r :=
  (h.spent spent_nil).1

/-! ## Chains -/

/-- What a search yields is there, and a lead or a chain from a lead ends at it. -/
theorem PlainSearch.chain {trail : List P} {ls : List (Lead P N)} {r : Option N} {id : N}
    (h : PlainSearch leads present trail ls r) (hr : r = some id) :
    present id ∧ (.node id ∈ ls ∨ ∃ p, .place p ∈ ls ∧ Chain leads p id) := by
  induction h with
  | nil => cases hr
  | present hid =>
    cases hr
    exact ⟨hid, .inl List.mem_cons_self⟩
  | absent _ _ ih =>
    obtain ⟨hid, hlead⟩ := ih hr
    exact ⟨hid, hlead.imp (List.mem_cons_of_mem _)
      fun ⟨p, hp, hchain⟩ => ⟨p, List.mem_cons_of_mem _ hp, hchain⟩⟩
  | found _ _ ih =>
    obtain ⟨hid, hlead⟩ := ih hr
    refine ⟨hid, .inr ⟨_, List.mem_cons_self, ?_⟩⟩
    rcases hlead with hlead | ⟨q, hq, hchain⟩
    · exact .ends hlead
    · exact .step hq hchain
  | missed _ _ _ _ ih =>
    obtain ⟨hid, hlead⟩ := ih hr
    exact ⟨hid, hlead.imp (List.mem_cons_of_mem _)
      fun ⟨p, hp, hchain⟩ => ⟨p, List.mem_cons_of_mem _ hp, hchain⟩⟩
  | refused _ _ ih =>
    obtain ⟨hid, hlead⟩ := ih hr
    exact ⟨hid, hlead.imp (List.mem_cons_of_mem _)
      fun ⟨p, hp, hchain⟩ => ⟨p, List.mem_cons_of_mem _ hp, hchain⟩⟩

/-- A chain from a place that was given up does not end at a node that is there. -/
theorem Spent.not_present_of_chain {seen : List P} (h : Spent leads present [] seen) {p : P}
    (hp : p ∈ seen) {id : N} (hchain : Chain leads p id) : ¬ present id := by
  induction hchain with
  | ends hlead => exact h.closed _ hp List.not_mem_nil _ hlead
  | step hlead _ ih => exact ih (h.closed _ hp List.not_mem_nil _ hlead)

/-- A search from a place finds something just if a chain from there ends at a node that is
there. -/
theorem SharedSearch.isSome_iff [DecidableEq P] {p : P} {r : Option N} {seen : List P}
    (h : SharedSearch leads present [] [.place p] r seen) :
    r.isSome ↔ ∃ id, present id ∧ Chain leads p id := by
  constructor
  · intro hsome
    obtain ⟨id, hr⟩ := Option.isSome_iff_exists.mp hsome
    obtain ⟨hid, hlead⟩ := h.plain.chain hr
    refine ⟨id, hid, ?_⟩
    rcases hlead with hlead | ⟨q, hq, hchain⟩
    · simp at hlead
    · obtain rfl : q = p := by simpa using hq
      exact hchain
  · rintro ⟨id, hid, hchain⟩
    by_contra hnone
    rw [Option.not_isSome_iff_eq_none] at hnone
    obtain ⟨spent, exhausted⟩ := (h.spent spent_nil).2 hnone
    exact spent.not_present_of_chain (exhausted _ List.mem_cons_self) hchain hid

end CodeAtlas.Link
