import JobChain.Proofs.Store.Steps

/-!
# Ways through a store

The steps of a path lead from place to place whether or not anything is there.
The path is followed when each place on the way holds a directory, and then it
ends where its steps lead.
-/

namespace JobChain

theorem bind_eq_ok_iff {ε α β : Type} {result : Except ε α}
    {next : α → Except ε β} {answer : β} :
    result >>= next = .ok answer ↔ ∃ value, result = .ok value ∧
    next value = .ok answer := by
  cases result <;> simp [Bind.bind, Except.bind]

namespace Store

open Path (isStep)

/-! ## Places on the way -/

def stepFrom (place : Place) (step : String) : Place :=
  if step = ".." then place.dropLast else place ++ [step]

def placeFrom (place : Place) (steps : List String) : Place :=
  steps.foldl stepFrom place

def walkFrom : Place → List String → List Place
  | place, [] => [place]
  | place, step :: rest => place :: walkFrom (stepFrom place step) rest

@[simp] theorem placeFrom_nil (place : Place) :
    placeFrom place [] = place := rfl

@[simp] theorem placeFrom_cons (place : Place) (step : String)
    (rest : List String) :
    placeFrom place (step :: rest) = placeFrom (stepFrom place step) rest := rfl

theorem placeFrom_append (place : Place) (steps steps' : List String) :
    placeFrom place (steps ++ steps') =
      placeFrom (placeFrom place steps) steps' :=
  List.foldl_append

theorem mem_walkFrom_self (place : Place)
    (steps : List String) : place ∈ walkFrom place steps := by
  cases steps <;> simp [walkFrom]

theorem placeFrom_mem_walkFrom (place : Place) (steps : List String) :
    placeFrom place steps ∈ walkFrom place steps := by
  induction steps generalizing place with
  | nil => simp [walkFrom]
  | cons step rest ih => exact List.mem_cons_of_mem _ (ih _)

theorem walkFrom_concat (place : Place) (steps : List String) (step : String) :
    walkFrom place (steps ++ [step]) =
      walkFrom place steps ++ [stepFrom (placeFrom place steps) step] := by
  induction steps generalizing place with
  | nil => rfl
  | cons first rest ih => simp [walkFrom, ih]

theorem stepFrom_name {name : String} (h : IsName name) (place : Place) :
    stepFrom place name = place ++ [name] := by
  simp [stepFrom, h.ne_parent]

/-! ## Open ways -/

/-- Every place on the way holds a directory, and no step is too long. -/
structure IsOpen (store : Store) (place : Place)
    (steps : List String) : Prop where
  directories : ∀ passed ∈ walkFrom place steps,
      store.node? passed = some .directory
  short : ∀ step ∈ steps, step.utf8ByteSize ≤ nameLimit

theorem isOpen_nil_iff {store : Store} {place : Place} :
    IsOpen store place [] ↔ store.node? place = some .directory :=
  ⟨fun h => h.directories place List.mem_cons_self,
    fun h => ⟨by simpa [walkFrom], by simp⟩⟩

private theorem isOpen_cons_iff {store : Store} {place : Place} {step : String}
    {rest : List String} : IsOpen store place (step :: rest) ↔
    store.node? place = some .directory ∧
      step.utf8ByteSize ≤ nameLimit ∧
      IsOpen store (stepFrom place step) rest := by
  constructor
  · intro h
    exact ⟨h.directories place List.mem_cons_self,
      h.short step List.mem_cons_self,
      fun passed hpassed =>
        h.directories passed (List.mem_cons_of_mem _ hpassed),
      fun s hs => h.short s (List.mem_cons_of_mem _ hs)⟩
  · rintro ⟨hplace, hshort, hrest⟩
    refine ⟨fun passed hpassed => ?_, fun s hs => ?_⟩
    · rcases List.mem_cons.1 hpassed with rfl | hpassed
      · exact hplace
      · exact hrest.directories passed hpassed
    · rcases List.mem_cons.1 hs with rfl | hs
      · exact hshort
      · exact hrest.short s hs

theorem isOpen_concat_iff {store : Store} {place : Place} {steps : List String}
    {step : String} : IsOpen store place (steps ++ [step]) ↔
    IsOpen store place steps ∧ step.utf8ByteSize ≤ nameLimit ∧
      store.node? (stepFrom (placeFrom place steps) step) =
        some .directory := by
  induction steps generalizing place with
  | nil => simp [isOpen_cons_iff, isOpen_nil_iff]
  | cons first rest ih => simp [isOpen_cons_iff, ih, and_assoc]

theorem IsOpen.left {store : Store} {place : Place} {steps steps' : List String}
    (h : IsOpen store place (steps ++ steps')) : IsOpen store place steps := by
  induction steps generalizing place with
  | nil => exact isOpen_nil_iff.2 (h.directories place (mem_walkFrom_self _ _))
  | cons step rest ih =>
      obtain ⟨hplace, hshort, hrest⟩ := isOpen_cons_iff.1 h
      exact isOpen_cons_iff.2 ⟨hplace, hshort, ih hrest⟩

/-! ## Following steps -/

theorem descend_eq_ok_iff {place target : Place} {piece : String} :
    descend place piece = .ok target ↔
      (∀ step ∈ [piece].filter isStep, step.utf8ByteSize ≤ nameLimit) ∧
        target = placeFrom place ([piece].filter isStep) := by
  unfold descend
  by_cases hstep : isStep piece = true
  · have hne : ¬(piece = "" ∨ piece = ".") := by simpa [isStep] using hstep
    rw [if_neg hne]
    by_cases hparent : piece = ".."
    · have hshort : (".." : String).utf8ByteSize ≤ nameLimit := by decide
      subst hparent
      simp [hstep, hshort, stepFrom, eq_comm]
    · by_cases hshort : nameLimit < piece.utf8ByteSize
      · simp [hparent, hshort, hstep, Nat.not_le.2 hshort]
      · simp [hparent, hshort, hstep, stepFrom, Nat.not_lt.1 hshort, eq_comm]
  · have hnone : piece = "" ∨ piece = "." :=
      Decidable.or_iff_not_imp_left.2 (by simpa [isStep] using hstep)
    rw [if_pos hnone]
    simp [hstep, eq_comm]

theorem enter_eq_ok_iff {store : Store} {place target : Place}
    {pieces : List String} : store.enter place pieces = .ok target ↔
      IsOpen store place (pieces.filter isStep) ∧
        target = placeFrom place (pieces.filter isStep) := by
  have hcheck : ∀ place found, enter.check store place = .ok found ↔
      store.node? place = some .directory ∧ found = place := by
    intro place found
    unfold enter.check
    cases store.node? place with
    | none => simp
    | some node => cases node <;> simp [eq_comm]
  induction pieces generalizing place with
  | nil => rw [enter, hcheck, List.filter_nil, isOpen_nil_iff, placeFrom_nil]
  | cons piece rest ih =>
      simp only [enter, bind_eq_ok_iff, hcheck, descend_eq_ok_iff, ih]
      by_cases hstep : isStep piece = true
      · simp [hstep, isOpen_cons_iff, and_assoc]
      · have hdirectory : IsOpen store place (rest.filter isStep) →
            store.node? place = some .directory := fun h =>
          h.directories place (mem_walkFrom_self _ _)
        simp only [List.filter_cons_of_neg hstep, List.filter_nil,
          placeFrom_nil]
        constructor
        · rintro ⟨value, ⟨-, rfl⟩, next, ⟨-, rfl⟩, hopen, rfl⟩
          exact ⟨hopen, rfl⟩
        · rintro ⟨hopen, rfl⟩
          exact ⟨place, ⟨hdirectory hopen, rfl⟩, place, by simp, hopen, rfl⟩

/-! ## Following paths -/

/-- A text that can be a path at all. -/
structure IsAccepted (path : Path) : Prop where
  no_nul : '\x00' ∉ path.text.toList
  ne_empty : path.text ≠ ""
  short : path.text.utf8ByteSize ≤ pathLimit

def startOf (here : Place) (path : Path) : Place :=
  if path.isAbsolute then [] else here

def placeOf (here : Place) (path : Path) : Place :=
  placeFrom (startOf here path) path.steps

theorem enterRoute_eq_ok_iff {store : Store} {path : Path} {target : Place} :
    store.enterRoute path = .ok target ↔
      IsAccepted path ∧
        IsOpen store (startOf store.here path)
          ((routeOf path).before.filter isStep) ∧
        target =
          placeFrom (startOf store.here path)
            ((routeOf path).before.filter isStep) := by
  unfold enterRoute
  by_cases hnul : '\x00' ∈ path.text.toList
  · rw [if_pos (by simpa using hnul)]
    exact iff_of_false (by simp) fun h => h.1.no_nul hnul
  by_cases hempty : path.text = ""
  · rw [if_neg (by simpa using hnul), if_pos hempty]
    exact iff_of_false (by simp) fun h => h.1.ne_empty hempty
  by_cases hlong : pathLimit < path.text.utf8ByteSize
  · rw [if_neg (by simpa using hnul), if_neg hempty, if_pos hlong]
    exact iff_of_false (by simp) fun h => Nat.not_le.2 hlong h.1.short
  · rw [if_neg (by simpa using hnul), if_neg hempty, if_neg hlong,
      enter_eq_ok_iff]
    exact (and_iff_right ⟨hnul, hempty, Nat.not_lt.1 hlong⟩).symm

private theorem filter_isStep_dropWhile (pieces : List String) :
    (pieces.dropWhile (· = "")).filter isStep = pieces.filter isStep := by
  induction pieces with
  | nil => rfl
  | cons piece rest ih =>
      by_cases hempty : piece = ""
      · simpa [hempty, isStep] using ih
      · simp [hempty]

theorem steps_routeOf (path : Path) :
    (routeOf path).before.filter isStep ++ [(routeOf path).last].filter isStep =
      path.steps := by
  have hdrop :=
    congrArg List.reverse (filter_isStep_dropWhile path.pieces.reverse)
  rw [List.filter_reverse, List.reverse_reverse, ← List.filter_reverse] at hdrop
  unfold routeOf
  cases hpieces : path.pieces.reverse.dropWhile (· = "") with
  | nil => simpa [hpieces, isStep, Path.steps] using hdrop
  | cons last before => simpa [hpieces, Path.steps] using hdrop

/-- What is at the end of a path that may be followed by a slash. -/
theorem ending_eq_ok_iff {store : Store} {slashed : Bool} {target place : Place}
    {node : Node} : (match store.node? target with
      | none => .error .notFound
      | some (.file content) =>
          if slashed then .error .notDirectory else .ok (target, .file content)
      | some .directory =>
          .ok (target, .directory) : Except StoreError (Place × Node)) =
        .ok (place, node) ↔ place = target ∧ store.node? place = some node ∧
          (node = .directory ∨ slashed = false) := by
  constructor
  · intro h
    split at h
    · cases h
    · rename_i content hfound
      split at h
      · cases h
      · rename_i hslashed
        cases h
        exact ⟨rfl, hfound, .inr (by simpa using hslashed)⟩
    · rename_i hfound
      cases h
      exact ⟨rfl, hfound, .inl rfl⟩
  · rintro ⟨rfl, hfound, hkind⟩
    rw [hfound]
    cases node with
    | directory => rfl
    | file content => simpa using hkind

theorem find_eq_ok_iff {store : Store} {path : Path} {place : Place}
    {node : Node} : store.find path = .ok (place, node) ↔
      IsAccepted path ∧
        IsOpen store (startOf store.here path)
          ((routeOf path).before.filter isStep) ∧
        (∀ step ∈ [(routeOf path).last].filter isStep,
          step.utf8ByteSize ≤ nameLimit) ∧
        place = placeOf store.here path ∧ store.node? place = some node ∧
        (node = .directory ∨ (routeOf path).slashed = false) := by
  have hplace :
      placeFrom
        (placeFrom (startOf store.here path)
          ((routeOf path).before.filter isStep))
      ([(routeOf path).last].filter isStep) = placeOf store.here path := by
    rw [← placeFrom_append, steps_routeOf, placeOf]
  simp only [find, bind_eq_ok_iff, enterRoute_eq_ok_iff, descend_eq_ok_iff]
  constructor
  · rintro ⟨before, ⟨haccepted, hopen, rfl⟩, target, ⟨hshort, rfl⟩, hfound⟩
    rw [hplace] at hfound
    exact ⟨haccepted, hopen, hshort, ending_eq_ok_iff.1 hfound⟩
  · rintro ⟨haccepted, hopen, hshort, hfound⟩
    refine ⟨_, ⟨haccepted, hopen, rfl⟩, _, ⟨hshort, rfl⟩, ?_⟩
    rw [hplace]
    exact ending_eq_ok_iff.2 hfound

theorem find_eq_ok {store : Store} {path : Path} {place : Place} {node : Node}
    (h : store.find path = .ok (place, node)) :
    place = placeOf store.here path ∧ store.node? place = some node := by
  obtain ⟨-, -, -, hplace, hnode, -⟩ := find_eq_ok_iff.1 h
  exact ⟨hplace, hnode⟩

theorem find_eq_directory_iff {store : Store} {path : Path} {place : Place} :
    store.find path = .ok (place, .directory) ↔
      IsAccepted path ∧ IsOpen store (startOf store.here path) path.steps ∧
        place = placeOf store.here path := by
  rw [find_eq_ok_iff, placeOf, ← steps_routeOf path]
  by_cases hstep : isStep (routeOf path).last = true
  · simp only [List.filter_cons_of_pos hstep, List.filter_nil,
      isOpen_concat_iff, placeFrom_append, placeFrom_cons, placeFrom_nil,
      List.mem_singleton, forall_eq]
    constructor
    · rintro ⟨haccepted, hopen, hshort, rfl, hnode, -⟩
      exact ⟨haccepted, ⟨hopen, hshort, hnode⟩, rfl⟩
    · rintro ⟨haccepted, ⟨hopen, hshort, hnode⟩, rfl⟩
      exact ⟨haccepted, hopen, hshort, rfl, hnode, .inl trivial⟩
  · simp only [List.filter_cons_of_neg hstep, List.filter_nil, List.append_nil]
    constructor
    · rintro ⟨haccepted, hopen, -, rfl, -⟩
      exact ⟨haccepted, hopen, rfl⟩
    · rintro ⟨haccepted, hopen, rfl⟩
      exact ⟨haccepted,
        hopen, by simp, rfl, hopen.directories _ (placeFrom_mem_walkFrom _ _),
        .inl trivial⟩

theorem isDirectory_iff {store : Store} {path : Path} :
    store.isDirectory path = true ↔
      IsAccepted path ∧ IsOpen store (startOf store.here path) path.steps := by
  have hfind : store.isDirectory path = true ↔
      ∃ place, store.find path = .ok (place, .directory) := by
    unfold isDirectory
    split <;> simp_all
  simp [hfind, find_eq_directory_iff]

/-! ## Paths that end in a name -/

theorem routeOf_of_ne_empty {path : Path} {before : List String} {last : String}
    (h : last ≠ "") (hpieces : path.pieces = before ++ [last]) :
    routeOf path = { before, last, slashed := false } := by
  simp [routeOf, hpieces, h]

theorem routeOf_of_name {path : Path} {before : List String} {name : String}
    (h : IsName name) (hpieces : path.pieces = before ++ [name]) :
    routeOf path = { before, last := name, slashed := false } :=
  routeOf_of_ne_empty h.ne_empty hpieces

theorem placeOf_of_name {path : Path} {before : List String} {name : String}
    (h : IsName name) (hpieces : path.pieces = before ++ [name])
    (here : Place) :
    placeOf here path = placeFrom (startOf here path) (before.filter isStep) ++
    [name] := by
  rw [placeOf, Path.steps, hpieces, List.filter_append, placeFrom_append,
    List.filter_cons_of_pos (Path.isStep_name h), List.filter_nil,
    placeFrom_cons, placeFrom_nil, stepFrom_name h]

/-- A name leads one step further, even one that is too long. -/
theorem placeOf_child (outer : Path) {name : String}
    (hslash : '/' ∉ name.toList) (hstep : isStep name = true)
    (hparent : name ≠ "..") (here : Place) :
    placeOf here (outer.child name) = placeOf here outer ++ [name] := by
  rw [placeOf, startOf, Path.isAbsolute_child outer hslash,
    Path.steps_child outer hslash, List.filter_cons_of_pos hstep,
    List.filter_nil, placeFrom_append, placeFrom_cons,
    placeFrom_nil, stepFrom, if_neg hparent]
  rfl

theorem find_of_name {store : Store} {path : Path} {before : List String}
    {name : String} (hname : IsName name)
    (hpieces : path.pieces = before ++ [name]) (haccepted : IsAccepted path)
    (hopen : IsOpen store (startOf store.here path) (before.filter isStep)) :
    store.find path =
      match store.node? (placeOf store.here path) with
      | none => .error .notFound
      | some node => .ok (placeOf store.here path, node) := by
  have henter : store.enterRoute path =
      .ok (placeFrom (startOf store.here path) (before.filter isStep)) := by
    rw [enterRoute_eq_ok_iff, routeOf_of_name hname hpieces]
    exact ⟨haccepted, hopen, rfl⟩
  have hdescend :
      descend
        (placeFrom (startOf store.here path) (before.filter isStep)) name =
      .ok (placeOf store.here path) := by
    rw [descend_eq_ok_iff, placeOf_of_name hname hpieces]
    simp [Path.isStep_name hname, hname.short, stepFrom_name hname]
  simp only [find, henter, routeOf_of_name hname hpieces]
  simp only [Bind.bind, Except.bind, hdescend]
  cases store.node? (placeOf store.here path) with
  | none => rfl
  | some node => cases node <;> rfl

end Store

end JobChain
