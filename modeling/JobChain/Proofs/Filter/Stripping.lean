import JobChain.Filter
import JobChain.Proofs.Encoding.Criteria
import JobChain.Proofs.TaskEffects

/-!
# What a filter changes

A filter empties the paths of the elements that have some and fail its
criterion. Every other field of a record stays as it is and where it is, and so
does every other edge. What has been emptied has no paths any more, so the same
filter finds nothing to do the second time, whatever its criterion looks at.
-/

namespace JobChain

/-! ## Fields changed in place -/

/-- A value that takes the place of another leaves the other entries where they
are. -/
theorem Assoc.insert_eq_map {α : Type} {key : String} {old : α}
    {entries : List (String × α)} (hsorted : Sorted entries)
    (hold : lookup key entries = some old) (change : α → α) :
    insert key (change old) entries =
      entries.map fun entry =>
        (entry.1, if entry.1 = key then change entry.2 else entry.2) := by
  induction entries with
  | nil => cases hold
  | cons entry rest ih =>
      obtain ⟨k, v⟩ := entry
      obtain ⟨hbehind, hrest⟩ := List.pairwise_cons.1 hsorted
      rw [lookup] at hold
      rw [insert, List.map_cons]
      split
      · rename_i hless
        rw [if_neg (by simp [hless])] at hold
        have hgreater := hbehind _ (mem_of_lookup hold)
        rw [Std.OrientedCmp.gt_of_lt hgreater] at hless
        cases hless
      · rename_i hequal
        rw [if_pos hequal] at hold
        obtain rfl := Option.some.inj hold
        obtain rfl := Std.LawfulEqCmp.eq_of_compare hequal
        have hothers : ∀ entry ∈ rest,
            (entry.1, if entry.1 = key then change entry.2 else entry.2) =
              entry := by
          intro entry hentry
          have hne : entry.1 ≠ key := by
            rintro rfl
            simpa using hbehind entry hentry
          rw [if_neg hne]
        rw [if_pos rfl, List.map_congr_left hothers, List.map_id']
      · rename_i hgreater
        rw [if_neg (by simp [hgreater])] at hold
        have hne : k ≠ key := by
          rintro rfl
          simp at hgreater
        rw [if_neg hne, ih hrest hold]

namespace Json

def mapFields (change : String → Json → Json) : Json → Json
  | .object fields =>
      .object (fields.map fun field => (field.1, change field.1 field.2))
  | value => value

def mapItems (change : Json → Json) : Json → Json
  | .array items => .array (items.map change)
  | value => value

section

variable {value : Json} {change further : String → Json → Json}

private theorem field?_mapFields (change : String → Json → Json) (value : Json)
    (key : String) :
    (value.mapFields change).field? key =
      (value.field? key).map (change key) := by
  cases value with
  | object fields =>
      simp only [mapFields, field?]
      induction fields with
      | nil => rfl
      | cons field rest ih =>
          rw [List.map_cons, Assoc.lookup, Assoc.lookup]
          split
          · rename_i hequal
            rw [Std.LawfulEqCmp.eq_of_compare hequal]
            rfl
          · exact ih
  | _ => rfl

private theorem mapFields_mapFields (change further : String → Json → Json)
    (value : Json) : (value.mapFields change).mapFields further =
      value.mapFields fun name field => further name (change name field) := by
  cases value with
  | object fields => simp [mapFields]
  | _ => rfl

private theorem mapFields_congr (hvalue : value.Canonical)
    (h : ∀ name field, field.Canonical →
      change name field = further name field) :
    value.mapFields change = value.mapFields further := by
  cases value with
  | object fields =>
      simp only [mapFields, object.injEq]
      refine List.map_congr_left fun field hfield => ?_
      rw [h _ _ (canonicalFields_iff.1 hvalue.2 field hfield)]
  | _ => rfl

private theorem mapFields_eq_self (hvalue : value.Canonical)
    (h : ∀ name field, value.field? name = some field →
      change name field = field) :
    value.mapFields change = value := by
  cases value with
  | object fields =>
      have hsame : ∀ field ∈ fields, (field.1, change field.1 field.2) =
          field := fun field hfield => by
        rw [h _ _ (Assoc.lookup_of_mem hvalue.1 hfield)]
      rw [mapFields, List.map_congr_left hsame, List.map_id']
  | _ => rfl

private theorem canonical_mapFields (hvalue : value.Canonical)
    (h : ∀ name field, field.Canonical → (change name field).Canonical) :
    (value.mapFields change).Canonical := by
  cases value with
  | object fields =>
      refine ⟨List.pairwise_map.2 hvalue.1,
        canonicalFields_iff.2 (List.forall_mem_map.2 ?_)⟩
      exact fun field hfield =>
        h _ _ (canonicalFields_iff.1 hvalue.2 field hfield)
  | _ => exact hvalue

private theorem setField_eq_mapFields {key : String} {old : Json}
    (hvalue : value.Canonical) (hold : value.field? key = some old)
    (change : Json → Json) : value.setField key (change old) =
      value.mapFields fun name field => if name = key then change field
        else field := by
  cases value with
  | object fields =>
      exact congrArg Json.object (Assoc.insert_eq_map hvalue.1 hold change)
  | _ => cases hold

private theorem canonical_mapItems {change : Json → Json}
    (hvalue : value.Canonical)
    (h : ∀ item, item.Canonical → (change item).Canonical) :
    (value.mapItems change).Canonical := by
  cases value with
  | array items =>
      refine canonicalItems_iff.2 (List.forall_mem_map.2 fun item hitem => ?_)
      exact h item (canonicalItems_iff.1 hvalue item hitem)
  | _ => exact hvalue

end

end Json

/-! ## Elements without their paths -/

namespace Element

open Json (mapFields mapItems)

def emptyPaths : Json → Json
  | .array _ => .array []
  | _ => .ofNat 0

def emptied : Json → Json :=
  mapFields fun name field => if name = "paths" then emptyPaths field else field

private theorem clearPaths_eq_emptied {element : Json}
    (helement : element.Canonical) (hpaths : 0 < pathCount element) :
    clearPaths element = emptied element := by
  obtain ⟨old, hold⟩ : ∃ old, element.field? "paths" = some old := by
    rw [← Option.ne_none_iff_exists']
    intro hnone
    simp [pathCount, hnone] at hpaths
  have hcleared :
      clearPaths element = element.setField "paths" (emptyPaths old) := by
    rw [clearPaths, hold]
    cases old <;> rfl
  rw [hcleared]
  exact Json.setField_eq_mapFields helement hold emptyPaths

@[simp] theorem pathCount_emptied (element : Json) :
    pathCount (emptied element) = 0 := by
  rw [pathCount, emptied, Json.field?_mapFields]
  cases element.field? "paths" with
  | none => rfl
  | some paths => cases paths <;> rfl

private theorem canonical_emptied {element : Json}
    (helement : element.Canonical) : (emptied element).Canonical := by
  refine Json.canonical_mapFields helement fun name field hfield => ?_
  split
  · cases field <;> trivial
  · exact hfield

def onEdges (change : Json → Json) (name : String) (field : Json) : Json :=
  if name = "out_edges" ∨ name = "in_edges" then mapItems change field
  else field

private theorem edges_mapFields (change : Json → Json) (vertex : Json) :
    edges (vertex.mapFields (onEdges change)) = (edges vertex).map change := by
  have hside : ∀ side, side = "out_edges" ∨ side = "in_edges" →
      edgesAt side (vertex.mapFields (onEdges change)) =
        (edgesAt side vertex).map change := by
    intro side hside
    rw [edgesAt, edgesAt, Json.field?_mapFields]
    cases vertex.field? side with
    | none => rfl
    | some field =>
        rw [Option.map_some, Option.bind_some, Option.bind_some, onEdges,
          if_pos hside]
        cases field <;> rfl
  rw [edges, edges, hside _ (.inl rfl), hside _ (.inr rfl), List.map_append]

section

variable {change : Json → Json} {vertex : Json} (hvertex : vertex.Canonical)

include hvertex

private theorem mapEdgesAt_eq (change : Json → Json) (side : String) :
    mapEdgesAt side change vertex =
    vertex.mapFields fun name field => if name = side then mapItems change field
      else field := by
  unfold mapEdgesAt
  split
  · rename_i edges hedges
    exact Json.setField_eq_mapFields hvertex hedges (mapItems change)
  · rename_i hnone
    refine (Json.mapFields_eq_self hvertex fun name field hfield => ?_).symm
    split
    · rename_i hname
      subst hname
      cases field with
      | array edges => exact absurd hfield (hnone edges)
      | _ => rfl
    · rfl

private theorem mapEdges_eq
    (hchange : ∀ edge, edge.Canonical → (change edge).Canonical) :
    mapEdges change vertex = vertex.mapFields (onEdges change) := by
  have houtgoing : (mapEdgesAt "out_edges" change vertex).Canonical := by
    rw [mapEdgesAt_eq hvertex]
    refine Json.canonical_mapFields hvertex fun name field hfield => ?_
    split
    · exact Json.canonical_mapItems hfield hchange
    · exact hfield
  rw [mapEdges, mapEdgesAt_eq houtgoing, mapEdgesAt_eq hvertex,
    Json.mapFields_mapFields]
  congr 1
  funext name field
  by_cases hout : name = "out_edges"
  · simp [onEdges, hout]
  · simp [onEdges, hout]

end

end Element

/-! ## Records as a filter leaves them -/

namespace Filter

open Element (emptied)

variable {kind : ElementKind} {test : Json → Bool}

def elementsOf : ElementKind → Json → List Json
  | .vertex, value => [value]
  | .edge, value => Element.edges value

def Fails (test : Json → Bool) (element : Json) : Prop :=
  0 < Element.pathCount element ∧ test element = false

instance (test : Json → Bool)
    (element : Json) : Decidable (Fails test element) :=
  inferInstanceAs (Decidable (_ ∧ _))

def emptiedIfFails (test : Json → Bool) (element : Json) : Json :=
  if Fails test element then emptied element else element

def filtered : ElementKind → (Json → Bool) → Json → Json
  | .vertex, test => emptiedIfFails test
  | .edge, test => Json.mapFields (Element.onEdges (emptiedIfFails test))

def failures (kind : ElementKind) (test : Json → Bool) (value : Json) : Nat :=
  (elementsOf kind value).countP fun element => Fails test element

private theorem rejects_eq (criterion : Criterion.Compiled) (element : Json) :
    rejects criterion element = decide (Fails criterion.holds element) := by
  rw [Bool.eq_iff_iff, decide_eq_true_eq, Fails]
  simp [rejects, Element.hasPaths]

private theorem strip_eq {criterion : Criterion.Compiled} {element : Json}
    (helement : element.Canonical) :
    strip criterion element = emptiedIfFails criterion.holds element := by
  rw [strip, rejects_eq, emptiedIfFails]
  by_cases hfails : Fails criterion.holds element
  · simp [hfails, Element.clearPaths_eq_emptied helement hfails.1]
  · simp [hfails]

private theorem canonical_emptiedIfFails {element : Json}
    (helement : element.Canonical) :
    (emptiedIfFails test element).Canonical := by
  unfold emptiedIfFails
  split
  · exact Element.canonical_emptied helement
  · exact helement

theorem canonical_filtered {value : Json} (hvalue : value.Canonical) :
    (filtered kind test value).Canonical := by
  cases kind with
  | vertex => exact canonical_emptiedIfFails hvalue
  | edge =>
      refine Json.canonical_mapFields hvalue fun name field hfield => ?_
      unfold Element.onEdges
      split
      · exact Json.canonical_mapItems hfield fun _ => canonical_emptiedIfFails
      · exact hfield

private theorem elementsOf_filtered (kind : ElementKind) (test : Json → Bool)
    (value : Json) :
    elementsOf kind (filtered kind test value) =
      (elementsOf kind value).map (emptiedIfFails test) := by
  cases kind with
  | vertex => rfl
  | edge => exact Element.edges_mapFields _ value

private theorem apply_eq {criterion : Criterion.Compiled} {value : Json}
    (hvalue : value.Canonical) : apply kind criterion value =
      (filtered kind criterion.holds value,
        failures kind criterion.holds value) := by
  cases kind with
  | vertex =>
      rw [apply, strip_eq hvalue, rejects_eq]
      simp [filtered, failures, elementsOf, List.countP_singleton]
  | edge =>
      have hcanonical : ∀ edge, edge.Canonical →
          (strip criterion edge).Canonical := by
        intro edge hedge
        rw [strip_eq hedge]
        exact canonical_emptiedIfFails hedge
      have hmapped : Element.mapEdges (strip criterion) value =
          filtered .edge criterion.holds value := by
        rw [Element.mapEdges_eq hvalue hcanonical]
        refine Json.mapFields_congr hvalue fun name field hfield => ?_
        unfold Element.onEdges
        split
        · cases field with
          | array edges =>
              refine congrArg Json.array (List.map_congr_left
                fun edge hedge => ?_)
              exact strip_eq (Json.canonicalItems_iff.1 hfield edge hedge)
          | _ => rfl
        · rfl
      rw [apply, hmapped, funext (rejects_eq criterion)]
      rfl

/-! ## One filter behind another -/

section

variable (first second : Json → Bool)

/-- The second test sees an element as the first one leaves it: without paths,
if it fails there. -/
theorem fails_emptiedIfFails (element : Json) :
    Fails second (emptiedIfFails first element) ↔
    ¬Fails first element ∧ Fails second element := by
  have hemptied : ¬Fails second (emptied element) := by simp [Fails]
  by_cases hfirst : Fails first element <;> simp [emptiedIfFails, hfirst,
      hemptied]

private theorem fails_and (element : Json) :
    Fails (fun element => first element && second element) element ↔
      Fails first element ∨ Fails second element := by
  simp only [Fails, Bool.and_eq_false_iff]
  tauto

private theorem emptiedIfFails_emptiedIfFails (element : Json) :
    emptiedIfFails second (emptiedIfFails first element) =
      emptiedIfFails (fun element => first element &&
        second element) element := by
  rw [emptiedIfFails.eq_1 second, emptiedIfFails.eq_1 fun element =>
    first element && second element]
  simp only [fails_emptiedIfFails, fails_and]
  by_cases hfirst : Fails first element <;> simp [emptiedIfFails, hfirst]

theorem filtered_filtered (kind : ElementKind) (value : Json) :
    filtered kind second (filtered kind first value) =
      filtered kind (fun element => first element && second element) value := by
  cases kind with
  | vertex => exact emptiedIfFails_emptiedIfFails first second value
  | edge =>
      rw [filtered, filtered, filtered, Json.mapFields_mapFields]
      congr 1
      funext name field
      unfold Element.onEdges
      split
      · cases field <;> simp [Json.mapItems, emptiedIfFails_emptiedIfFails]
      · rfl

theorem failures_add_failures (kind : ElementKind) (value : Json) :
    failures kind first value +
    failures kind second (filtered kind first value) =
      failures kind (fun element => first element && second element) value := by
  rw [failures, failures, failures, elementsOf_filtered, List.countP_map]
  induction elementsOf kind value with
  | nil => rfl
  | cons element rest ih =>
      have hfirst := fails_emptiedIfFails first second element
      have hboth := fails_and first second element
      simp only [List.countP_cons, Function.comp_apply, decide_eq_true_eq,
        hfirst, hboth] at ih ⊢
      by_cases hfails : Fails first element <;> simp [hfails] <;> omega

end

private theorem failures_filtered (kind : ElementKind) (test : Json → Bool)
    (value : Json) : failures kind test (filtered kind test value) = 0 := by
  have hadd := failures_add_failures test test kind value
  simp only [Bool.and_self] at hadd
  exact Nat.add_eq_left.1 hadd

/-! ## Calls of the function -/

/-- The options of a stage that name a kind of elements and hold the text of a
criterion. -/
structure Carries (options : Options) (kind : ElementKind)
    (criterion : Criterion) : Prop where
  kind : (options.get? elementOption).bind ElementKind.ofText? = some kind
  criterion : ∃ encoded, options.get? criterionOption = some encoded ∧
    Criterion.decode encoded = .ok criterion

theorem carries_of_get? {options : Options} {kind : ElementKind}
    {criterion : Criterion}
    (hkind : options.get? elementOption = some kind.text)
    (hcriterion : options.get? criterionOption = some criterion.encode)
    (hvalue : ∀ value ∈ criterion.value?,
      value.Returns (Document.maxDepth - 1)) :
    Carries options kind criterion where
  kind := by
    rw [hkind]
    cases kind <;> decide
  criterion := ⟨_, hcriterion, Criterion.decode_encode hvalue⟩

theorem get?_options (kind : ElementKind) (criterion : Criterion) :
    (options kind criterion).get? elementOption = some kind.text ∧
      (options kind criterion).get? criterionOption =
        some criterion.encode := by
  have hinserted : options kind criterion =
      (SortedMap.empty.insert elementOption kind.text).insert criterionOption
        criterion.encode := rfl
  have hne : elementOption ≠ criterionOption := by decide
  rw [hinserted, SortedMap.get?_insert, if_neg hne, SortedMap.get?_insert,
    if_pos rfl, SortedMap.get?_insert, if_pos rfl]
  exact ⟨rfl, rfl⟩

/-- The options of a filter as a stage come back, if the value in its criterion
does. -/
theorem carries_options {criterion : Criterion} (kind : ElementKind)
    (hvalue : ∀ value ∈ criterion.value?,
      value.Returns (Document.maxDepth - 1)) :
    Carries (options kind criterion) kind criterion :=
  carries_of_get? (get?_options kind criterion).1
    (get?_options kind criterion).2 hvalue

def readyState (kind : ElementKind) (criterion : Criterion.Compiled) : State :=
  { kind := some kind, criterion := some criterion }

theorem setup_eq {options : Options} {criterion : Criterion}
    {compiled : Criterion.Compiled} (hoptions : Carries options kind criterion)
    (hcompile : criterion.compile = .ok compiled) (state : State) :
    setup options state = .silent (readyState kind compiled) := by
  obtain ⟨text, htext, hkind⟩ := Option.bind_eq_some_iff.1 hoptions.kind
  obtain ⟨encoded, hencoded, hdecode⟩ := hoptions.criterion
  have hread : readCriterion options = .ok compiled := by
    rw [readCriterion, hencoded]
    simp only [hdecode, hcompile]
    rfl
  rw [setup, readKind, htext]
  simp only [hkind, hread]
  rfl

def asks (kind : ElementKind) (test : Json → Bool)
    (pair : Pair) : List Action :=
  countAction kind (failures kind test pair.value) ++
    [.write { pair with value := filtered kind test pair.value }]

theorem map_eq (kind : ElementKind) (criterion : Criterion.Compiled)
    (options : Options) {pair : Pair} (hvalue : pair.value.Canonical) :
    map options (readyState kind criterion) pair =
      { actions := asks kind criterion.holds pair,
        state := readyState kind criterion } := by
  simp only [map, readyState, apply_eq hvalue, asks]

def counterName : ElementKind → String
  | .vertex => "VERTICES_FILTERED"
  | .edge => "EDGES_FILTERED"

/-- What a call has done to a task that hands one pair on and counts some
elements of a kind. -/
structure HandsOn (task after : Task) (kind : ElementKind) (pair : Pair)
    (amount : Nat) : Prop where
  emitted : after.emitted = task.emitted.push pair
  counted : ∀ group name, after.counters.get group name =
    task.counters.get group name +
    if group = "filter" ∧ name = counterName kind then amount else 0
  named : after.named = task.named
  status : after.status = task.status
  progress : after.progress = task.progress

private theorem handsOn_countAction (task : Task) (kind : ElementKind)
    (pair : Pair) (amount : Nat) :
    HandsOn task (task.performAll (countAction kind amount ++ [.write pair]))
      kind pair amount := by
  have hcounted : ∀ name group other,
      (task.counters.increment "filter" name amount).get group other =
        task.counters.get group other +
          if group = "filter" ∧ other = name then amount else 0 := by
    intro name group other
    rw [Counters.get_increment]
    simp only [eq_comm]
  cases kind with
  | vertex =>
      cases amount with
      | zero =>
          exact ⟨rfl,
            fun _ _ => by simp [countAction, Task.perform], rfl, rfl, rfl⟩
      | succ => exact ⟨rfl, hcounted _, rfl, rfl, rfl⟩
  | edge => exact ⟨rfl, hcounted _, rfl, rfl, rfl⟩

/-- A filter that is set up hands every record on under its key, with the paths
of the failing elements emptied and nothing else changed, and counts these. It
never fails, and a second time it changes nothing and counts nothing. Any
options that carry its kind and criterion set it up, those of its stage among
them. -/
theorem strips_once {options : Options} {criterion : Criterion}
    {compiled : Criterion.Compiled}
    (hoptions : Carries options kind criterion)
    (hcompile : criterion.compile = .ok compiled)
    (pair : Pair) (hvalue : pair.value.Canonical) (state : State)
    (task : Task) :
    let ready := readyState kind compiled
    let stripped : Pair := { pair with value := filtered kind compiled.holds pair.value }
    ((∀ value ∈ criterion.value?, value.Returns (Document.maxDepth - 1)) →
      Carries (Filter.options kind criterion) kind criterion) ∧
    setup options state = .silent ready ∧
    ∃ first second,
      map options ready pair = { actions := first, state := ready } ∧
      HandsOn task (task.performAll first) kind stripped
        (failures kind compiled.holds pair.value) ∧
      map options ready stripped = { actions := second, state := ready } ∧
      HandsOn (task.performAll first)
        ((task.performAll first).performAll second) kind stripped 0 := by
  intro ready stripped
  have hcanonical : stripped.value.Canonical := canonical_filtered hvalue
  have hagain := map_eq kind compiled options hcanonical
  simp only [asks, stripped, failures_filtered, filtered_filtered,
    Bool.and_self] at hagain
  exact ⟨carries_options kind, setup_eq hoptions hcompile state, _, _,
    map_eq kind compiled options hvalue,
    handsOn_countAction _ _ _ _, hagain, handsOn_countAction _ _ _ _⟩

theorem strips_once_edges :
    let criterion : Criterion := .scripted "paths == 1"
    let compiled : Criterion.Compiled :=
      .formula (.compare (.path "paths") .eq (.literal (.ofNat 1)))
    let vertex (listed : Json) (count : Nat) : Json := .ofFields
      [("in_edges", .array [.ofFields [("paths", listed)], .ofNat 7]),
        ("out_edges", .array [.ofFields [("id", .null), ("paths", .ofNat 1)],
          .ofFields [("paths", .ofNat count), ("weight", .null)]]),
        ("paths", .ofNat 3)]
    let before := vertex (.array [.array [.ofNat 4]]) 2
    let after := vertex (.array []) 0
    Carries (options .edge criterion) .edge criterion ∧
    criterion.compile = .ok compiled ∧
      before.Canonical ∧ failures .edge compiled.holds before = 2 ∧
      setup (options .edge criterion) {} = .silent (readyState .edge compiled) ∧
      ∃ actions,
        map (options .edge criterion) (readyState .edge compiled)
          ⟨.null, before⟩ = { actions, state := readyState .edge compiled } ∧
        HandsOn {} (({} : Task).performAll actions) .edge ⟨.null, after⟩ 2 := by
  intro criterion compiled vertex before after
  have hoptions : Carries (options .edge criterion) .edge criterion :=
    carries_options .edge (by rintro _ ⟨⟩)
  have hcompile : criterion.compile = .ok compiled := by decide +kernel
  have hvalue : before.Canonical := by
    simp [before, vertex, Json.ofFields, Json.ofNat, Json.ofInt, Json.Canonical,
      Json.CanonicalItems, Json.CanonicalFields, Assoc.Sorted]
    decide
  have hfailures : failures .edge compiled.holds before = 2 := by decide +kernel
  have hafter : filtered .edge compiled.holds before = after := by
    decide +kernel
  obtain ⟨-, hsetup, first, -, hmap, hfirst, -⟩ :=
    strips_once hoptions hcompile ⟨.null, before⟩ hvalue {} {}
  rw [hfailures, hafter] at hfirst
  exact ⟨hoptions, hcompile, hvalue, hfailures, hsetup, first, hmap, hfirst⟩

end Filter

end JobChain
