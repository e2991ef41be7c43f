import Shorthand.Markup.Snippet

/-!
# Resolution — the rules by which snippets are expanded

An element asks for a snippet (`Asks`), or it settles to another element (`Settles`), without a look
at its children, or it is a placeholder for more text than there is room for (`overfull`), over which
the expansion breaks down. `Resolved` has the rules for whole forests: four of them, one for the end of
a level and one for each kind of node. `resolve_eq_ok_iff` says that these rules are what `resolve`
does, so whatever is to be shown of expanded snippets is shown by induction on them, and the
resolver stays closed.
-/

namespace Shorthand.Markup.Snippet

/-! ## One element -/

/-- Inside the snippets `visited`, the element is one to expand: its name is in the table, and it is
neither placeholder text nor one of `visited`. -/
structure Asks (visited : List String) (e : Element) (name source : String) : Prop where
  key : key? e = some name
  lorem : Lorem.wordCount? name = none
  fresh : name ∉ visited
  source : source? name = some source

/-- Whether an element stands for more words of placeholder text than there is room for. -/
def overfull (e : Element) : Bool :=
  ((key? e).bind Lorem.wordCount?).any fun count => Lorem.capacity < count

/-- What becomes of an element that is no snippet, or that stands in itself. -/
inductive Settles (visited : List String) (e : Element) : Element → Prop
  | unnamed (hkey : key? e = none) : Settles visited e e
  | lorem {name : String} {count : Nat} (hkey : key? e = some name)
      (hcount : Lorem.wordCount? name = some count) (hroom : count ≤ Lorem.capacity) :
      Settles visited e (Lorem.fill count e)
  | inside {name : String} (hkey : key? e = some name) (hlorem : Lorem.wordCount? name = none)
      (hvisited : name ∈ visited) : Settles visited e e
  | unknown {name : String} (hkey : key? e = some name) (hlorem : Lorem.wordCount? name = none)
      (hfresh : name ∉ visited) (hsource : source? name = none) :
      Settles visited e (dropMarker name e)

/-- Every element does one of these. -/
theorem settles_or_asks_or_overfull (visited : List String) (e : Element) :
    (∃ settled, Settles visited e settled) ∨ (∃ name source, Asks visited e name source) ∨
      overfull e = true := by
  cases hkey : key? e with
  | none => exact .inl ⟨e, .unnamed hkey⟩
  | some name =>
    cases hlorem : Lorem.wordCount? name with
    | some count =>
      by_cases hroom : count ≤ Lorem.capacity
      · exact .inl ⟨_, .lorem hkey hlorem hroom⟩
      · refine .inr (.inr ?_)
        simpa [overfull, hkey, hlorem] using hroom
    | none =>
      by_cases hvisited : name ∈ visited
      · exact .inl ⟨e, .inside hkey hlorem hvisited⟩
      · cases hsource : source? name with
        | none => exact .inl ⟨_, .unknown hkey hlorem hvisited hsource⟩
        | some source => exact .inr (.inl ⟨name, source, hkey, hlorem, hvisited, hsource⟩)

/-- And none does two of them. -/
theorem Settles.not_asks {visited : List String} {e settled : Element} {name source : String}
    (h : Settles visited e settled) : ¬Asks visited e name source := by
  rintro ⟨hkey, hlorem, hfresh, hsource⟩
  cases h with
  | unnamed hnone => simp [hnone] at hkey
  | lorem hsome hcount _ =>
    cases hsome.symm.trans hkey
    simp [hcount] at hlorem
  | inside hsome _ hvisited =>
    cases hsome.symm.trans hkey
    exact hfresh hvisited
  | unknown hsome _ _ hnone =>
    cases hsome.symm.trans hkey
    simp [hnone] at hsource

theorem Settles.not_overfull {visited : List String} {e settled : Element}
    (h : Settles visited e settled) : overfull e = false := by
  cases h with
  | unnamed hkey => simp [overfull, hkey]
  | lorem hkey hcount hroom => simpa [overfull, hkey, hcount] using hroom
  | inside hkey hlorem => simp [overfull, hkey, hlorem]
  | unknown hkey hlorem => simp [overfull, hkey, hlorem]

theorem Asks.not_overfull {visited : List String} {e : Element} {name source : String}
    (h : Asks visited e name source) : overfull e = false := by
  simp [overfull, h.key, h.lorem]

theorem Asks.unique {visited : List String} {e : Element} {name source name' source' : String}
    (h : Asks visited e name source) (h' : Asks visited e name' source') :
    name = name' ∧ source = source' := by
  cases h.key.symm.trans h'.key
  cases h.source.symm.trans h'.source
  exact ⟨rfl, rfl⟩

/-! ## One step of the resolver -/

section Equations

variable (limits : Limits) (budget : Nat) (visited : List String) (times : Option Nat)
  (children rest : Forest)

theorem resolve_nil : resolve limits budget visited [] = .ok [] := by
  rw [resolve, Forest.replaceElements]

theorem resolve_group : resolve limits budget visited (.group times children :: rest) = (do
    let inner ← resolve limits budget visited children
    let others ← resolve limits budget visited rest
    return .group times inner :: others) := by
  unfold resolve
  rw [Forest.replaceElements, Node.replaceElements]
  cases Forest.replaceElements _ children <;> rfl

variable {visited} {e : Element}

theorem resolve_settled {settled : Element} (h : Settles visited e settled) :
    resolve limits budget visited (.element e times children :: rest) = (do
      let inner ← resolve limits budget visited children
      let others ← resolve limits budget visited rest
      return .element settled times inner :: others) := by
  unfold resolve
  rw [Forest.replaceElements, Node.replaceElements]
  cases Forest.replaceElements _ children with
  | error => rfl
  | ok inner =>
    cases h with
    | unnamed hkey => simp only [hkey]; rfl
    | lorem hkey hcount hroom => simp only [hkey, hcount, if_pos hroom]; rfl
    | inside hkey hlorem hvisited =>
      simp only [hkey, hlorem, List.contains_iff_mem.mpr hvisited]
      rfl
    | unknown hkey hlorem hfresh hsource =>
      simp only [hkey, hlorem, hsource, List.contains_iff_mem, hfresh]
      rfl

theorem resolve_overfull (h : overfull e = true) :
    resolve limits budget visited (.element e times children :: rest) = (do
      let _ ← resolve limits budget visited children
      .error (.brokeDown Lorem.overflowMessage)) := by
  obtain ⟨count, hcount, hmore⟩ := (Option.any_eq_true ..).mp h
  obtain ⟨name, hkey, hcount⟩ := Option.bind_eq_some_iff.mp hcount
  have hroom : ¬count ≤ Lorem.capacity := Nat.not_le.mpr (of_decide_eq_true hmore)
  unfold resolve
  rw [Forest.replaceElements, Node.replaceElements]
  cases Forest.replaceElements _ children with
  | error => rfl
  | ok inner =>
    simp only [hkey, hcount, if_neg hroom]
    rfl

variable {name source : String} (h : Asks visited e name source)
include h

theorem resolve_snippet : resolve limits (budget + 1) visited (.element e times children :: rest) =
    (do
      let inner ← resolve limits (budget + 1) visited children
      let parsed ← (read limits (withVariables source)).mapError fun invalid =>
        .rejected { cause := .invalidSnippet name invalid.cause }
      let expanded ← resolve limits budget (name :: visited) parsed
      let others ← resolve limits (budget + 1) visited rest
      return merge e times inner expanded :: others) := by
  obtain ⟨f, hresolve, hf⟩ : ∃ f,
      (∀ forest, resolve limits (budget + 1) visited forest = Forest.replaceElements f forest) ∧
      ∀ inner, f e times inner = (do
        let parsed ← (read limits (withVariables source)).mapError fun invalid =>
          .rejected { cause := .invalidSnippet name invalid.cause }
        let expanded ← resolve limits budget (name :: visited) parsed
        return merge e times inner expanded) := by
    refine ⟨_, fun forest => by rw [resolve], fun inner => ?_⟩
    simp only [h.key, h.lorem, h.source, List.contains_iff_mem, h.fresh, if_false]
    cases read limits (withVariables source) <;> rfl
  rw [hresolve, hresolve, hresolve, Forest.replaceElements, Node.replaceElements]
  simp only [hf, bind_assoc, pure_bind]

/-- Where the snippet is expanded, the element becomes what the two are merged to. -/
theorem resolve_merged {parsed expanded : Forest}
    (hread : read limits (withVariables source) = .ok parsed)
    (hexpanded : resolve limits budget (name :: visited) parsed = .ok expanded) :
    resolve limits (budget + 1) visited (.element e times children :: rest) = (do
      let inner ← resolve limits (budget + 1) visited children
      let others ← resolve limits (budget + 1) visited rest
      return merge e times inner expanded :: others) := by
  rw [resolve_snippet limits budget times children rest h, hread]
  cases resolve limits (budget + 1) visited children with
  | error => rfl
  | ok inner =>
    show (resolve limits budget (name :: visited) parsed >>= _) = _
    rw [hexpanded]
    rfl

theorem resolve_exhausted : resolve limits 0 visited (.element e times children :: rest) = (do
    let _ ← resolve limits 0 visited children
    .error (.rejected { cause := .snippetTooDeep name limits.snippetDepth })) := by
  unfold resolve
  rw [Forest.replaceElements, Node.replaceElements]
  cases Forest.replaceElements _ children with
  | error => rfl
  | ok inner =>
    simp only [h.key, h.lorem, h.source, List.contains_iff_mem, h.fresh]
    rfl

end Equations

/-! ## Forests -/

/-- By these rules a forest is expanded inside the snippets `visited`, where `budget` more may nest.
An element that asks for a snippet becomes the forest of the snippet, expanded inside it, with what
is written on the element merged in. -/
inductive Resolved (limits : Limits) :
    (budget : Nat) → (visited : List String) → Forest → Forest → Prop
  | nil {budget : Nat} {visited : List String} : Resolved limits budget visited [] []
  | group {budget : Nat} {visited : List String} {times : Option Nat}
      {children inner rest others : Forest}
      (hchildren : Resolved limits budget visited children inner)
      (hrest : Resolved limits budget visited rest others) :
      Resolved limits budget visited (.group times children :: rest) (.group times inner :: others)
  | settled {budget : Nat} {visited : List String} {e settled : Element} {times : Option Nat}
      {children inner rest others : Forest} (hsettles : Settles visited e settled)
      (hchildren : Resolved limits budget visited children inner)
      (hrest : Resolved limits budget visited rest others) :
      Resolved limits budget visited (.element e times children :: rest)
        (.element settled times inner :: others)
  | snippet {budget : Nat} {visited : List String} {e : Element} {name source : String}
      {times : Option Nat} {children inner parsed expanded rest others : Forest}
      (hasks : Asks visited e name source)
      (hread : read limits (withVariables source) = .ok parsed)
      (hexpanded : Resolved limits budget (name :: visited) parsed expanded)
      (hchildren : Resolved limits (budget + 1) visited children inner)
      (hrest : Resolved limits (budget + 1) visited rest others) :
      Resolved limits (budget + 1) visited (.element e times children :: rest)
        (merge e times inner expanded :: others)

/-- By induction on how many snippets may nest, and in each of them on the forest. -/
theorem resolved_of_resolve {limits : Limits} : ∀ (budget : Nat) (visited : List String)
    (forest : Forest) {result : Forest}, resolve limits budget visited forest = .ok result →
    Resolved limits budget visited forest result
  | budget, visited, [], result, h => by
      rw [resolve_nil] at h
      cases h
      exact .nil
  | budget, visited, .group times children :: rest, result, h => by
      rw [resolve_group] at h
      obtain ⟨inner, hinner, h⟩ := bind_eq_ok.mp h
      obtain ⟨others, hothers, h⟩ := bind_eq_ok.mp h
      cases h
      exact .group (resolved_of_resolve budget visited children hinner)
        (resolved_of_resolve budget visited rest hothers)
  | budget, visited, .element e times children :: rest, result, h => by
      rcases settles_or_asks_or_overfull visited e with
        ⟨settled, hsettles⟩ | ⟨name, source, hasks⟩ | hfull
      · rw [resolve_settled _ _ _ _ _ hsettles] at h
        obtain ⟨inner, hinner, h⟩ := bind_eq_ok.mp h
        obtain ⟨others, hothers, h⟩ := bind_eq_ok.mp h
        cases h
        exact .settled hsettles (resolved_of_resolve budget visited children hinner)
          (resolved_of_resolve budget visited rest hothers)
      · match budget, h with
        | 0, h =>
          rw [resolve_exhausted _ _ _ _ hasks] at h
          obtain ⟨_, _, h⟩ := bind_eq_ok.mp h
          cases h
        | budget + 1, h =>
          rw [resolve_snippet _ _ _ _ _ hasks] at h
          obtain ⟨inner, hinner, h⟩ := bind_eq_ok.mp h
          obtain ⟨parsed, hparsed, h⟩ := bind_eq_ok.mp h
          obtain ⟨expanded, hexpanded, h⟩ := bind_eq_ok.mp h
          obtain ⟨others, hothers, h⟩ := bind_eq_ok.mp h
          cases h
          exact .snippet hasks (mapError_eq_ok.mp hparsed)
            (resolved_of_resolve budget (name :: visited) parsed hexpanded)
            (resolved_of_resolve (budget + 1) visited children hinner)
            (resolved_of_resolve (budget + 1) visited rest hothers)
      · rw [resolve_overfull _ _ _ _ _ hfull] at h
        obtain ⟨_, _, h⟩ := bind_eq_ok.mp h
        cases h
termination_by budget _ forest => (budget, sizeOf forest)

theorem resolve_of_resolved {limits : Limits} {budget : Nat} {visited : List String}
    {forest result : Forest} (h : Resolved limits budget visited forest result) :
    resolve limits budget visited forest = .ok result := by
  induction h with
  | nil => rw [resolve_nil]
  | group _ _ hchildren hrest =>
    rw [resolve_group]
    exact bind_eq_ok.mpr ⟨_, hchildren, bind_eq_ok.mpr ⟨_, hrest, rfl⟩⟩
  | settled hsettles _ _ hchildren hrest =>
    rw [resolve_settled _ _ _ _ _ hsettles]
    exact bind_eq_ok.mpr ⟨_, hchildren, bind_eq_ok.mpr ⟨_, hrest, rfl⟩⟩
  | snippet hasks hread _ _ _ hexpanded hchildren hrest =>
    rw [resolve_merged _ _ _ _ _ hasks hread hexpanded]
    exact bind_eq_ok.mpr ⟨_, hchildren, bind_eq_ok.mpr ⟨_, hrest, rfl⟩⟩

/-- The rules say when a forest can be resolved, and what it becomes. -/
theorem resolve_eq_ok_iff {limits : Limits} {budget : Nat} {visited : List String}
    {forest result : Forest} :
    resolve limits budget visited forest = .ok result ↔
      Resolved limits budget visited forest result :=
  ⟨resolved_of_resolve budget visited forest, resolve_of_resolved⟩

theorem Resolved.unique {limits : Limits} {budget : Nat} {visited : List String}
    {forest result result' : Forest} (h : Resolved limits budget visited forest result)
    (h' : Resolved limits budget visited forest result') : result = result' :=
  Except.ok.inj ((resolve_of_resolved h).symm.trans (resolve_of_resolved h'))

end Shorthand.Markup.Snippet
