import Shorthand.Proofs.Markup.Preorder
import Shorthand.Proofs.Markup.Resolution
import Shorthand.Proofs.Rejection
import Shorthand.Proofs.Text.Ascii

/-!
# SnippetNesting — how deep snippets nest

To expand a snippet is to read its abbreviation and to expand the snippets in that, one level below
(`Level.Opens`). The snippets that are being expanded are known on each level, and none of them is
expanded again. There are only as many levels as there are names in the table, whatever the limits
are (`Level.wellFounded_opens`).

The snippets of the table refer to each other, some also to themselves. `nestsWithin` follows these
references, and `table_sound` is what it finds: all snippets can be read, and at most five are ever
inside one another. So no snippet fails to expand unless a bound is tightened. What can fail is
placeholder text that there is no room for (`expandSnippets_ends`).
-/

namespace Shorthand

/-! ## Bounds -/

/-- The wider one of each two bounds. -/
def Limits.sup (a b : Limits) : Limits :=
  { abbreviationLength := max a.abbreviationLength b.abbreviationLength
    repeatCount := max a.repeatCount b.repeatCount
    elements := max a.elements b.elements
    depth := max a.depth b.depth
    snippetDepth := max a.snippetDepth b.snippetDepth }

theorem Limits.le_sup_left (a b : Limits) : a ≤ a.sup b := by
  constructor <;> exact Nat.le_max_left _ _

theorem Limits.le_sup_right (a b : Limits) : b ≤ a.sup b := by
  constructor <;> exact Nat.le_max_right _ _

namespace Markup

theorem read_of_le {limits larger : Limits} (hle : limits ≤ larger) {abbreviation : String}
    {forest : Forest} (h : read limits abbreviation = .ok forest) :
    read larger abbreviation = .ok forest := by
  rw [← h]
  exact ((agrees_read hle abbreviation).eq fun e he => by cases h.symm.trans he).symm

/-- Limits make no difference to what is read. -/
theorem read_unique {limits limits' : Limits} {abbreviation : String} {forest forest' : Forest}
    (h : read limits abbreviation = .ok forest) (h' : read limits' abbreviation = .ok forest') :
    forest = forest' := by
  have hwide := read_of_le (limits.le_sup_left limits') h
  have hwide' := read_of_le (limits.le_sup_right limits') h'
  exact Except.ok.inj (hwide.symm.trans hwide')

namespace Snippet

open Text

/-! ## Levels -/

/-- A forest that is being resolved, and the snippets that it is in, the innermost one first. -/
structure Level where
  visited : List String
  forest : Forest

/-- An element of the one level is a snippet to expand, and the other level is the forest of that
snippet. How many levels there are already makes no difference here. -/
inductive Level.Opens (limits : Limits) : Level → Level → Prop
  | intro {visited : List String} {forest parsed : Forest} {e : Element} {name source : String}
      (he : e ∈ Forest.preorder forest) (hasks : Asks visited e name source)
      (hread : read limits (withVariables source) = .ok parsed) :
      Opens limits ⟨visited, forest⟩ ⟨name :: visited, parsed⟩

theorem mem_table_of_source? {name source : String} (h : source? name = some source) :
    (name, source) ∈ table := by
  obtain ⟨before, after, htable, _⟩ := List.lookup_eq_some_iff.mp h
  rw [htable]
  exact List.mem_append_right before List.mem_cons_self

namespace Level

variable {limits : Limits} {level next last : Level}

/-- How many snippets are left to expand. -/
def unvisited (level : Level) : Nat := table.countP fun entry => entry.1 ∉ level.visited

theorem Opens.unvisited_lt (h : Opens limits level next) : next.unvisited < level.unvisited := by
  obtain @⟨visited, forest, parsed, e, name, source, _, hasks, _⟩ := h
  obtain ⟨before, after, htable, _⟩ := List.lookup_eq_some_iff.mp hasks.source
  have hmono : ∀ entries : List (String × String),
      entries.countP (fun entry => entry.1 ∉ name :: visited) ≤
        entries.countP fun entry => entry.1 ∉ visited := by
    intro entries
    refine List.countP_mono_left fun entry _ hentry => ?_
    simp only [List.mem_cons, not_or, decide_eq_true_eq] at hentry ⊢
    exact hentry.2
  have hbefore := hmono before
  have hafter := hmono after
  simp only [unvisited, htable, List.countP_append, List.countP_cons, List.mem_cons_self,
    hasks.fresh, not_true_eq_false, not_false_eq_true, decide_true, decide_false, if_true,
    Bool.false_eq_true, if_false]
  omega

/-- **Snippets do not nest without end**, under any limits. -/
theorem wellFounded_opens (limits : Limits) :
    WellFounded fun next level => Opens limits level next :=
  Subrelation.wf (fun h => h.unvisited_lt) (measure unvisited).wf

theorem Opens.length_visited (h : Opens limits level next) :
    next.visited.length = level.visited.length + 1 := by
  obtain ⟨_, _, _⟩ := h
  exact List.length_cons

/-- The snippets that a level is in are different ones, and all in the table. -/
structure Sound (level : Level) : Prop where
  nodup : level.visited.Nodup
  known : ∀ name ∈ level.visited, name ∈ table.map Prod.fst

theorem Opens.sound (h : Opens limits level next) (hlevel : level.Sound) : next.Sound := by
  obtain ⟨_, hasks, _⟩ := h
  constructor
  · exact List.nodup_cons.mpr ⟨hasks.fresh, hlevel.nodup⟩
  · have hname := List.mem_map_of_mem (f := Prod.fst) (mem_table_of_source? hasks.source)
    exact List.forall_mem_cons.mpr ⟨hname, hlevel.known⟩

/-- So it is on all levels below. -/
theorem Sound.below (hlevel : level.Sound) (h : Relation.ReflTransGen (Opens limits) level last) :
    last.Sound := by
  induction h with
  | refl => exact hlevel
  | tail _ hopens ih => exact hopens.sound ih

end Level

/-! ## The table -/

/-- The names that the elements of a forest are looked up by. -/
def keys (forest : Forest) : List String := (Forest.preorder forest).filterMap key?

theorem keys_group (times : Option Nat) (children rest : Forest) :
    keys (.group times children :: rest) = keys children ++ keys rest := by
  simp only [keys, Forest.preorder, Node.preorder, List.filterMap_append]

theorem keys_element (e : Element) (times : Option Nat) (children rest : Forest) :
    keys (.element e times children :: rest) =
      (key? e).toList ++ (keys children ++ keys rest) := by
  cases hkey : key? e <;> simp [keys, Forest.preorder, Node.preorder, hkey]

/-- The characters of the abbreviation that a snippet stands for, which is in ASCII. -/
def characters (source : String) : List Char :=
  variableValues.foldl (fun s v => substitute v.1 v.2 s) (asciiChars source)

/-- The forest of a snippet. -/
def parsed? (source : String) : Option Forest := (readChars {} (characters source)).toOption

/-- For an element with this name inside the snippets `visited`, at most `n` snippets have to be
expanded inside one another, and all of them can be read. -/
def nestsWithin : (n : Nat) → (visited : List String) → (name : String) → Bool
  | 0, visited, name => visited.contains name || (source? name).isNone
  | n + 1, visited, name =>
    visited.contains name ||
      match source? name with
      | none => true
      | some source =>
        (parsed? source).any fun parsed => (keys parsed).all (nestsWithin n (name :: visited))

theorem table_sound : ∀ entry ∈ table, ((bytes entry.2).all (·.toNat < 128) &&
    (parsed? entry.2).any fun parsed => !(Forest.preorder parsed).any overfull &&
      (keys parsed).all (nestsWithin 4 [entry.1])) = true := by
  decide +kernel

/-- All snippets of the table can be read, and there is room for what they stand for. -/
theorem exists_parsed? {name source : String} (hsource : source? name = some source) :
    ∃ parsed, parsed? source = some parsed ∧ (Forest.preorder parsed).any overfull = false ∧
      (keys parsed).all (nestsWithin 4 [name]) = true := by
  have hsound := (Bool.and_eq_true_iff.mp (table_sound _ (mem_table_of_source? hsource))).2
  obtain ⟨parsed, hparsed, hsound⟩ := (Option.any_eq_true ..).mp hsound
  obtain ⟨hroom, hnests⟩ := Bool.and_eq_true_iff.mp hsound
  exact ⟨parsed, hparsed, (Bool.not_eq_true' _).mp hroom, hnests⟩

theorem read_of_parsed? {name source : String} (hsource : source? name = some source)
    {parsed : Forest} (h : parsed? source = some parsed) :
    read {} (withVariables source) = .ok parsed := by
  have hascii : (bytes source).all (·.toNat < 128) = true :=
    (Bool.and_eq_true_iff.mp (table_sound _ (mem_table_of_source? hsource))).1
  have hchars : (withVariables source).toList = characters source := by
    rw [withVariables, String.toList_ofList, characters, toList_eq_asciiChars hascii]
  rw [parsed?] at h
  rw [read, hchars]
  cases hread : readChars {} (characters source) with
  | error f =>
    rw [hread] at h
    cases h
  | ok forest =>
    rw [hread] at h
    cases h
    rfl

theorem parsed?_of_read {limits : Limits} {name source : String} {parsed : Forest}
    (hsource : source? name = some source) (h : read limits (withVariables source) = .ok parsed) :
    parsed? source = some parsed := by
  obtain ⟨forest, hforest, _⟩ := exists_parsed? hsource
  cases read_unique h (read_of_parsed? hsource hforest)
  exact hforest

theorem not_overfull_of_read {limits : Limits} {name source : String} {parsed : Forest}
    (hsource : source? name = some source) (h : read limits (withVariables source) = .ok parsed) :
    (Forest.preorder parsed).any overfull = false := by
  obtain ⟨forest, hforest, hroom, _⟩ := exists_parsed? hsource
  cases hforest.symm.trans (parsed?_of_read hsource h)
  exact hroom

/-- Inside of no other snippet, five are enough for every name. -/
theorem nestsWithin_five (name : String) : nestsWithin 5 [] name = true := by
  rw [nestsWithin, List.contains_nil, Bool.false_or]
  cases hsource : source? name with
  | none => rfl
  | some source =>
    obtain ⟨parsed, hparsed, _, hnests⟩ := exists_parsed? hsource
    exact (Option.any_eq_true ..).mpr ⟨parsed, hparsed, hnests⟩

theorem nestsWithin_of_asks {n : Nat} {visited : List String} {e : Element} {name source : String}
    (hasks : Asks visited e name source) (h : nestsWithin n visited name = true) :
    ∃ left parsed, n = left + 1 ∧ read {} (withVariables source) = .ok parsed ∧
      ∀ key ∈ keys parsed, nestsWithin left (name :: visited) key = true := by
  have hfresh : visited.contains name = false := by
    simpa using hasks.fresh
  cases n with
  | zero => simp [nestsWithin, hasks.fresh, hasks.source] at h
  | succ left =>
    rw [nestsWithin, hfresh, Bool.false_or, hasks.source, Option.any_eq_true] at h
    obtain ⟨parsed, hparsed, hkeys⟩ := h
    exact ⟨left, parsed, rfl, read_of_parsed? hasks.source hparsed, List.all_eq_true.mp hkeys⟩

theorem nestsWithin_of_opens {limits : Limits} {level next : Level} {n : Nat}
    (hopens : Level.Opens limits level next)
    (h : ∀ key ∈ keys level.forest, nestsWithin n level.visited key = true) :
    ∃ left, n = left + 1 ∧ ∀ key ∈ keys next.forest, nestsWithin left next.visited key = true := by
  obtain ⟨he, hasks, hread⟩ := hopens
  obtain ⟨left, parsed, rfl, hparsed, hkeys⟩ := nestsWithin_of_asks hasks
    (h _ (List.mem_filterMap.mpr ⟨_, he, hasks.key⟩))
  cases read_unique hread hparsed
  exact ⟨left, rfl, hkeys⟩

/-- There are no more levels below a level than snippets nest in it, under any limits. -/
theorem length_visited_le_add {limits : Limits} {level last : Level}
    (h : Relation.ReflTransGen (Level.Opens limits) level last) {n : Nat}
    (hkeys : ∀ key ∈ keys level.forest, nestsWithin n level.visited key = true) :
    last.visited.length ≤ level.visited.length + n := by
  induction h using Relation.ReflTransGen.head_induction_on generalizing n with
  | refl => exact Nat.le_add_right _ _
  | head hopens _ ih =>
    obtain ⟨left, rfl, hnext⟩ := nestsWithin_of_opens hopens hkeys
    have hlast := ih hnext
    have hlength := hopens.length_visited
    omega

/-! ## What comes of a forest -/

/-- The one way that an expansion of snippets ends without a result, if `full`, and the result
otherwise. -/
def Ends (full : Bool) (x : Except Failure Forest) : Prop :=
  ∃ result, x = if full then .error (.brokeDown Lorem.overflowMessage) else .ok result

theorem Ends.bind {a b : Bool} {x y : Except Failure Forest} (hx : Ends a x) (hy : Ends b y)
    (f : Forest → Forest → Forest) :
    Ends (a || b) (do let inner ← x; let others ← y; return f inner others) := by
  obtain ⟨inner, rfl⟩ := hx
  obtain ⟨others, rfl⟩ := hy
  refine ⟨f inner others, ?_⟩
  cases a <;> cases b <;> rfl

/-- By induction on how many snippets nest, and in each of them on the forest. -/
theorem ends_resolve : ∀ (n : Nat) (visited : List String) (forest : Forest),
    (∀ key ∈ keys forest, nestsWithin n visited key = true) →
    Ends ((Forest.preorder forest).any overfull) (resolve {} n visited forest)
  | n, visited, [], _ => ⟨[], by rw [resolve_nil]; rfl⟩
  | n, visited, .group times children :: rest, h => by
      rw [keys_group, List.forall_mem_append] at h
      rw [resolve_group, Forest.preorder, Node.preorder, List.any_append]
      exact (ends_resolve n visited children h.1).bind (ends_resolve n visited rest h.2)
        fun inner others => .group times inner :: others
  | n, visited, .element e times children :: rest, h => by
      rw [keys_element, List.forall_mem_append, List.forall_mem_append] at h
      have hchildren := ends_resolve n visited children h.2.1
      have hrest := ends_resolve n visited rest h.2.2
      rw [Forest.preorder, Node.preorder, List.any_append, List.any_cons]
      rcases settles_or_asks_or_overfull visited e with
        ⟨settled, hsettles⟩ | ⟨name, source, hasks⟩ | hfull
      · rw [resolve_settled _ _ _ _ _ hsettles, hsettles.not_overfull, Bool.false_or]
        exact hchildren.bind hrest fun inner others => .element settled times inner :: others
      · obtain ⟨left, parsed, rfl, hread, hkeys⟩ := nestsWithin_of_asks hasks
          (h.1 name (Option.mem_toList.mpr hasks.key))
        obtain ⟨expanded, hexpanded⟩ := ends_resolve left (name :: visited) parsed hkeys
        rw [not_overfull_of_read hasks.source hread, if_neg Bool.false_ne_true] at hexpanded
        rw [resolve_merged _ _ _ _ _ hasks hread hexpanded, hasks.not_overfull, Bool.false_or]
        exact hchildren.bind hrest fun inner others => merge e times inner expanded :: others
      · rw [resolve_overfull _ _ _ _ _ hfull, hfull, Bool.true_or, Bool.true_or]
        obtain ⟨inner, hinner⟩ := hchildren
        refine ⟨inner, ?_⟩
        rw [hinner]
        cases (Forest.preorder children).any overfull <;> rfl
termination_by n _ forest => (n, sizeOf forest)

/-- A bound above what nests is as good as any. -/
theorem resolve_add (limits : Limits) (more : Nat) :
    ∀ (n : Nat) (visited : List String) (forest : Forest),
      (∀ key ∈ keys forest, nestsWithin n visited key = true) →
      resolve limits (n + more) visited forest = resolve limits n visited forest
  | n, visited, [], _ => by rw [resolve_nil, resolve_nil]
  | n, visited, .group times children :: rest, h => by
      rw [keys_group, List.forall_mem_append] at h
      rw [resolve_group, resolve_group, resolve_add limits more n visited children h.1,
        resolve_add limits more n visited rest h.2]
  | n, visited, .element e times children :: rest, h => by
      rw [keys_element, List.forall_mem_append, List.forall_mem_append] at h
      have hchildren := resolve_add limits more n visited children h.2.1
      have hrest := resolve_add limits more n visited rest h.2.2
      rcases settles_or_asks_or_overfull visited e with
        ⟨settled, hsettles⟩ | ⟨name, source, hasks⟩ | hfull
      · rw [resolve_settled _ _ _ _ _ hsettles, resolve_settled _ _ _ _ _ hsettles, hchildren,
          hrest]
      · obtain ⟨left, parsed, rfl, hread, hkeys⟩ := nestsWithin_of_asks hasks
          (h.1 name (Option.mem_toList.mpr hasks.key))
        have hinner := resolve_add limits more left (name :: visited) parsed hkeys
        rw [Nat.add_right_comm] at hchildren hrest ⊢
        rw [resolve_snippet _ _ _ _ _ hasks, resolve_snippet _ _ _ _ _ hasks, hchildren, hrest]
        cases hparsed : read limits (withVariables source) with
        | error => rfl
        | ok forest =>
          cases read_unique hparsed hread
          show (_ >>= fun inner => resolve limits (left + more) (name :: visited) parsed >>= _) = _
          rw [hinner]
          rfl
      · rw [resolve_overfull _ _ _ _ _ hfull, resolve_overfull _ _ _ _ _ hfull, hchildren]
termination_by n _ forest => (n, sizeOf forest)

end Snippet

/-- **Expanding snippets ends, and with the snippets of the table it fails in one way only.** The
snippets that are being expanded are different ones of the table, so there is no endless row of
levels, under any limits. There are five levels at most, more than which need not be allowed. So
under the default limits, and without limits, every forest is expanded, unless it has an element that
stands for more words of placeholder text than there is room for, over which the expansion breaks
down. -/
theorem expandSnippets_ends (forest : Forest) :
    (∀ limits, WellFounded fun next level => Snippet.Level.Opens limits level next) ∧
    (∀ limits level, Relation.ReflTransGen (Snippet.Level.Opens limits) ⟨[], forest⟩ level →
      level.visited.Nodup ∧ (∀ name ∈ level.visited, name ∈ Snippet.table.map Prod.fst) ∧
        level.visited.length ≤ 5) ∧
    (∀ limits more,
      Snippet.resolve limits (5 + more) [] forest = Snippet.resolve limits 5 [] forest) ∧
    ∃ result, ∀ limits : Limits, limits = {} ∨ limits = .unlimited →
      expandSnippets limits forest =
        if (Forest.preorder forest).any Snippet.overfull then
          .error (.brokeDown Lorem.overflowMessage)
        else .ok result := by
  have hkeys : ∀ key ∈ Snippet.keys forest, Snippet.nestsWithin 5 [] key = true :=
    fun key _ => Snippet.nestsWithin_five key
  refine ⟨Snippet.Level.wellFounded_opens, ?_, ?_, ?_⟩
  · intro limits level hlevel
    have hsound := Snippet.Level.Sound.below ⟨List.nodup_nil, fun _ h => by cases h⟩ hlevel
    have hlength := Snippet.length_visited_le_add hlevel hkeys
    exact ⟨hsound.nodup, hsound.known, by simpa using hlength⟩
  · intro limits more
    exact Snippet.resolve_add limits more 5 [] forest hkeys
  · obtain ⟨result, hresult⟩ := Snippet.ends_resolve 5 [] forest hkeys
    refine ⟨result, fun limits hlimits => ?_⟩
    have hle : ({} : Limits) ≤ limits := by
      rcases hlimits with rfl | rfl <;> constructor <;> decide
    have hdepth : 5 ≤ limits.snippetDepth := by
      rcases hlimits with rfl | rfl <;> decide
    rw [← hresult]
    refine ((Snippet.agrees_resolve hle hdepth [] forest).eq fun failure hfailure => ?_).symm
    rw [hresult] at hfailure
    split at hfailure
    · cases hfailure
      rfl
    · cases hfailure

/-- An element that stands for as many words as can be written. -/
def endless : Forest := [.element { name := some [.text "lorem18446744073709551615"] } none []]

theorem expandSnippets_endless :
    expandSnippets {} endless = .error (.brokeDown Lorem.overflowMessage) ∧
      expandSnippets .unlimited endless = .error (.brokeDown Lorem.overflowMessage) := by
  have hfull : Snippet.overfull { name := some [.text "lorem18446744073709551615"] } = true := by
    decide
  have hends : ∀ limits, expandSnippets limits endless =
      .error (.brokeDown Lorem.overflowMessage) := by
    intro limits
    rw [expandSnippets, endless, Snippet.resolve_overfull _ _ _ _ _ hfull, Snippet.resolve_nil]
    rfl
  exact ⟨hends {}, hends .unlimited⟩

end Markup

end Shorthand
