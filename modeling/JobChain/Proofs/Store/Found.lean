import JobChain.Proofs.Glob.Escape
import JobChain.Proofs.Store.Trees
import JobChain.Store.Listing

/-!
# What patterns find

The pattern of a directory and a front finds the names in the directory with
that front. The search goes there piece by piece, on a path of its own that
stands for the same steps. It gets nowhere when that path is too long, and when
an empty piece behind dots at the front makes it start from no path at all.
-/

namespace JobChain.Store

open Glob (exactPart frontPart patternPieces)
open Path (isStep)

/-! ## Paths of a search -/

def searchStart (absolute : Bool) : Path := if absolute then ⟨"/"⟩ else ⟨"."⟩

/-- A path of a search stands for steps from the root or from where relative
paths start. -/
structure Stands (base : Path) (absolute : Bool)
    (steps : List String) : Prop where
  isAbsolute_eq : base.isAbsolute = absolute
  steps_eq : base.steps = steps
  ne_empty : base.text ≠ ""
  no_nul : '\x00' ∉ base.text.toList
  current : absolute = false → steps = [] → base = ⟨"."⟩

theorem stands_searchStart (absolute : Bool) :
    Stands (searchStart absolute) absolute [] := by
  cases absolute
  · exact ⟨by decide, by decide, by decide, by decide, fun _ _ => rfl⟩
  · exact ⟨by decide, by decide, by decide, by decide, fun h => by simp at h⟩

private theorem components_eq_current {base : Path}
    (h : base.components = [.current]) : base.isAbsolute = false ∧
    base.steps = [] := by
  have habsolute : base.isAbsolute = false := by
    cases habsolute : base.isAbsolute with
    | false => rfl
    | true => simp [Path.components, habsolute] at h
  refine ⟨habsolute, ?_⟩
  have hnone : ∀ piece ∈ base.pieces, Path.component? piece = none := by
    intro piece hpiece
    cases hcomponent : Path.component? piece with
    | none => rfl
    | some component =>
        have hmem : component ∈ base.pieces.filterMap Path.component? :=
          List.mem_filterMap.2 ⟨piece, hpiece, hcomponent⟩
        rw [Path.components, if_neg (by simp [habsolute])] at h
        split at h
        · have hnil : base.pieces.filterMap Path.component? = [] := by
            simpa using h
          rw [hnil] at hmem
          cases hmem
        · rw [List.nil_append] at h
          rw [h, List.mem_singleton] at hmem
          subst hmem
          unfold Path.component? at hcomponent
          split_ifs at hcomponent <;> cases hcomponent
  rw [Path.steps, List.filter_eq_nil_iff]
  intro piece hpiece
  have hcomponent := hnone piece hpiece
  unfold Path.component? at hcomponent
  split at hcomponent
  · rename_i hdot
    rcases hdot with rfl | rfl <;> simp [isStep]
  · split at hcomponent <;> cases hcomponent

namespace Stands

variable {base : Path} {absolute : Bool} {steps : List String}

theorem stepTo_eq (h : Stands base absolute steps) (name : String) :
    stepTo base name = if base = ⟨"."⟩ then ⟨name⟩ else base.child name := by
  unfold stepTo
  by_cases hcurrent : base = ⟨"."⟩
  · rw [if_pos hcurrent, if_pos (by rw [hcurrent]; decide)]
  · rw [if_neg hcurrent, if_neg]
    intro hcomponents
    obtain ⟨habsolute, hsteps⟩ := components_eq_current hcomponents
    exact hcurrent (h.current (h.isAbsolute_eq ▸ habsolute) (h.steps_eq ▸
      hsteps))

theorem stepTo (h : Stands base absolute steps) {piece : String}
    (hslash : '/' ∉ piece.toList) (hnul : '\x00' ∉ piece.toList)
    (hread : base = ⟨"."⟩ → piece ≠ "") :
    Stands (Store.stepTo base piece) absolute (steps ++
      [piece].filter isStep) := by
  rw [h.stepTo_eq]
  by_cases hcurrent : base = ⟨"."⟩
  · have hne := hread hcurrent
    have hsteps : steps = [] := by rw [← h.steps_eq, hcurrent]; decide
    have habsolute : absolute = false := by
      rw [← h.isAbsolute_eq, hcurrent]; decide
    rw [if_pos hcurrent, hsteps, habsolute, List.nil_append]
    refine ⟨Path.isAbsolute_of_no_slash hslash, ?_, hne, hnul, fun _ hnil => ?_⟩
    · rw [Path.steps, Path.pieces_of_no_slash hslash]
    · have hdot : piece = "." := by simpa [isStep, hne] using hnil
      rw [hdot]
  · rw [if_neg hcurrent]
    constructor
    · rw [Path.isAbsolute_child base hslash, h.isAbsolute_eq]
    · rw [Path.steps_child base hslash, h.steps_eq]
    · rw [Path.text_child base hslash]
      simp [Path.front_ne_empty h.ne_empty]
    · rw [Path.text_child base hslash, String.toList_append]
      intro hmem
      rcases List.mem_append.1 hmem with hmem | hmem
      · exact h.no_nul (Path.mem_of_mem_front hmem (by decide))
      · exact hnul hmem
    · intro habsolute hnil
      exact absurd (h.current habsolute (List.append_eq_nil_iff.1 hnil).1)
        hcurrent

private theorem stepTo_eq_current (h : Stands base absolute steps)
    {piece : String} (hslash : '/' ∉ piece.toList)
    (hstep : Store.stepTo base piece = ⟨"."⟩) : base = ⟨"."⟩ ∧ piece = "." := by
  rw [h.stepTo_eq] at hstep
  split_ifs at hstep with hcurrent
  · exact ⟨hcurrent, Path.mk.inj hstep⟩
  · have htext : base.front ++ piece = "." := by
      rw [← Path.text_child base hslash, hstep]
    rcases base.front_eq with ⟨-, hempty⟩ | ⟨text, hfront, -⟩
    · exact absurd hempty h.ne_empty
    · have hmem : '/' ∈ (base.front ++ piece).toList := by simp [hfront]
      rw [htext] at hmem
      exact absurd hmem (by decide)

private theorem size_le_stepTo (h : Stands base absolute steps) {piece : String}
    (hslash : '/' ∉ piece.toList) (hread : base = ⟨"."⟩ → piece ≠ "") :
    base.text.utf8ByteSize ≤ (Store.stepTo base piece).text.utf8ByteSize := by
  rw [h.stepTo_eq]
  split_ifs with hcurrent
  · have hsize : piece.utf8ByteSize ≠ 0 := by simpa using hread hcurrent
    have hdot : base.text.utf8ByteSize = 1 := by rw [hcurrent]; decide
    simp only
    omega
  · rw [Path.text_child base hslash, String.utf8ByteSize_append, Path.front,
      if_neg h.ne_empty]
    split_ifs
    · omega
    · rw [String.utf8ByteSize_append]
      omega

private theorem size_stepTo_le (h : Stands base absolute steps) {piece : String}
    (hslash : '/' ∉ piece.toList) :
    (Store.stepTo base piece).text.utf8ByteSize ≤
      base.text.utf8ByteSize + (piece.utf8ByteSize + 1) := by
  have hone : ("/" : String).utf8ByteSize = 1 := by decide
  rw [h.stepTo_eq]
  split_ifs with hcurrent
  · simp only
    omega
  · rw [Path.text_child base hslash, String.utf8ByteSize_append, Path.front,
      if_neg h.ne_empty]
    split_ifs
    · omega
    · rw [String.utf8ByteSize_append]
      omega

/-- Pieces that do not go astray from a path of a search. -/
structure IsRead (base : Path) (pieces : List String) : Prop where
  no_slash : ∀ piece ∈ pieces, '/' ∉ piece.toList
  no_nul : ∀ piece ∈ pieces, '\x00' ∉ piece.toList
  head_ne : base = ⟨"."⟩ → (pieces.dropWhile (· = ".")).head? ≠ some ""

theorem isRead_tail (h : Stands base absolute steps) {piece : String}
    {rest : List String} (hread : IsRead base (piece :: rest)) :
    IsRead (Store.stepTo base piece) rest where
  no_slash other hother := hread.no_slash other (List.mem_cons_of_mem _ hother)
  no_nul other hother := hread.no_nul other (List.mem_cons_of_mem _ hother)
  head_ne hcurrent := by
    obtain ⟨hbase, rfl⟩ :=
      h.stepTo_eq_current (hread.no_slash piece List.mem_cons_self) hcurrent
    simpa using hread.head_ne hbase

theorem isRead_head {piece : String} {rest : List String}
    (hread : IsRead base (piece :: rest)) : base = ⟨"."⟩ → piece ≠ "" := by
  rintro hcurrent rfl
  exact hread.head_ne hcurrent (by simp)

private theorem foldl_stepTo {pieces : List String}
    (h : Stands base absolute steps) (hread : IsRead base pieces) :
    Stands (pieces.foldl Store.stepTo base) absolute (steps ++
      pieces.filter isStep) ∧
      base.text.utf8ByteSize ≤
        (pieces.foldl Store.stepTo base).text.utf8ByteSize := by
  induction pieces generalizing base steps with
  | nil => exact ⟨by simpa using h, Nat.le_refl _⟩
  | cons piece rest ih =>
      have hslash := hread.no_slash piece List.mem_cons_self
      have hnext := h.stepTo hslash (hread.no_nul piece List.mem_cons_self)
        (isRead_head hread)
      obtain ⟨hstands, hsize⟩ := ih hnext (isRead_tail h hread)
      refine ⟨?_,
        Nat.le_trans (h.size_le_stepTo hslash (isRead_head hread)) hsize⟩
      rw [List.append_assoc, ← List.filter_append] at hstands
      exact hstands

private theorem size_foldl_le {pieces : List String}
    (h : Stands base absolute steps) (hread : IsRead base pieces) :
    (pieces.foldl Store.stepTo base).text.utf8ByteSize ≤
      base.text.utf8ByteSize +
      (pieces.map fun piece => piece.utf8ByteSize + 1).sum := by
  induction pieces generalizing base steps with
  | nil => simp
  | cons piece rest ih =>
      have hslash := hread.no_slash piece List.mem_cons_self
      have hnext := h.stepTo hslash (hread.no_nul piece List.mem_cons_self)
        (isRead_head hread)
      have hrest := ih hnext (isRead_tail h hread)
      have hfirst := h.size_stepTo_le hslash
      simp only [List.foldl_cons, List.map_cons, List.sum_cons]
      omega

theorem startOf_eq (h : Stands base absolute steps) (here : Place) :
    startOf here base = if absolute then [] else here := by
  rw [startOf, h.isAbsolute_eq]

end Stands

/-! ## Directories on the way -/

variable {store : Store} {keep : Path → Bool}

theorem isDirectory_of_stands {base : Path} {absolute : Bool}
    {steps : List String} (h : Stands base absolute steps)
    (hsize : base.text.utf8ByteSize ≤ pathLimit)
    (hopen : IsOpen store (if absolute then [] else store.here) steps) :
    store.isDirectory base = true := by
  rw [isDirectory_iff, h.startOf_eq, h.steps_eq]
  exact ⟨⟨h.no_nul, h.ne_empty, hsize⟩, hopen⟩

theorem find_of_isDirectory {path : Path} (h : store.isDirectory path = true) :
    store.find path = .ok (placeOf store.here path, .directory) := by
  rw [find_eq_directory_iff]
  obtain ⟨haccepted, hopen⟩ := isDirectory_iff.1 h
  exact ⟨haccepted, hopen, rfl⟩

theorem namesAt_eq (store : Store) (path : Path) :
    store.namesAt path =
      if store.isDirectory path then store.namesIn (placeOf store.here path)
      else [] := by
  by_cases hdirectory : store.isDirectory path = true
  · have hfind := find_of_isDirectory hdirectory
    simp [namesAt, names, hdirectory, hfind, Bind.bind, Except.bind,
      Except.toOption]
  · rw [if_neg hdirectory]
    unfold isDirectory at hdirectory
    unfold namesAt names
    cases hfind : store.find path with
    | error error => simp [Bind.bind, Except.bind, Except.toOption]
    | ok found =>
        obtain ⟨place, node⟩ := found
        cases node with
        | file content => simp [Bind.bind, Except.bind, Except.toOption]
        | directory => simp [hfind] at hdirectory

theorem filter_namesAt (store : Store) (path : Path) (name : String) :
    (store.namesAt path).filter (fun other => decide (other = name)) =
      if name ∈ store.namesAt path then [name] else [] := by
  have hnodup : (store.namesAt path).Nodup := by
    rw [namesAt_eq]
    split_ifs
    · exact store.nodup_namesIn _
    · exact .nil
  rw [List.filter_eq, hnodup.count]
  split_ifs <;> rfl

/-! ## Piece by piece -/

theorem dotsFor_eq_nil {base : Path} {part : Glob.Part}
    (hcurrent : part.accepts "." = false)
    (hparent : part.accepts ".." = false) : dotsFor base part = [] := by
  unfold dotsFor
  split <;> simp [hcurrent, hparent]

private theorem search_literal (name : String) (rest : List Glob.Part)
    (fuel : Nat) (base : Path) :
    store.search keep (fuel + 1) (.literal name :: rest) base =
      if (if isDots name then store.isDirectory base
      else store.has (stepTo base name)) = true then
        store.search keep fuel rest (stepTo base name)
      else [] := rfl

def goesOn (store : Store) (base : Path) (piece : String) : Bool :=
  if piece.toList.all (fun c => !Glob.isSpecial c) then
    if isDots piece then store.isDirectory base
    else store.has (stepTo base piece)
  else (store.namesAt base).contains piece

theorem isStep_of_special {piece : String}
    (h : ¬piece.toList.all (fun c => !Glob.isSpecial c) = true) :
    isStep piece = true ∧ piece ≠ ".." := by
  have hother : ∀ name : String,
      name.toList.all (fun c => !Glob.isSpecial c) = true →
      piece ≠ name := fun name hname heq => h (heq ▸ hname)
  refine ⟨?_, hother ".." (by decide)⟩
  simp [isStep, hother "" (by decide), hother "." (by decide)]

theorem ne_empty_of_goesOn {piece : String}
    (h : goesOn store ⟨"."⟩ piece = true) : piece ≠ "" := by
  rintro rfl
  simp [goesOn, isDots, has, stepTo, Path.components, Path.pieces,
    Path.isAbsolute, Path.component?, find, enterRoute, Text.splitAt, Bind.bind,
    Except.bind, Except.isOk,
    Except.toBool] at h

theorem search_exactPart (piece : String) (rest : List Glob.Part) (fuel : Nat)
    (base : Path) :
    store.search keep (fuel + 1) (exactPart piece :: rest) base =
      if goesOn store base piece = true then
        store.search keep fuel rest (stepTo base piece)
      else [] := by
  have haccepts := Glob.accepts_exactPart piece
  unfold exactPart at haccepts ⊢
  unfold goesOn
  split_ifs at haccepts with hplain
  · rw [if_pos hplain, if_pos hplain, search_literal]
  · have hdots := isStep_of_special hplain
    have hnil : dotsFor base (.wild (piece.toList.map Glob.exactToken)) =
        [] := by
      refine dotsFor_eq_nil ?_ ?_
      · rw [haccepts, decide_eq_false_iff_not]
        rintro rfl
        simp [isStep] at hdots
      · simpa [haccepts] using hdots.2.symm
    have hfilter := store.filter_namesAt base piece
    rw [if_neg hplain, if_neg hplain]
    simp only [search, hnil, ite_self, List.nil_append, haccepts, hfilter,
      List.contains_iff_mem]
    split_ifs <;> simp

theorem of_mem_search_exactParts {pieces : List String} {base path : Path}
    {absolute : Bool} {steps : List String} {rest : List Glob.Part} {fuel : Nat}
    (h : Stands base absolute steps)
    (hslash : ∀ piece ∈ pieces, '/' ∉ piece.toList)
    (hnul : ∀ piece ∈ pieces, '\x00' ∉ piece.toList)
    (hpath : path ∈ store.search keep (fuel + pieces.length)
      (pieces.map exactPart ++ rest) base) :
    Stands.IsRead base pieces ∧
    path ∈ store.search keep fuel rest (pieces.foldl stepTo base) := by
  induction pieces generalizing base steps with
  | nil => exact ⟨⟨hslash, hnul, by simp⟩, hpath⟩
  | cons piece others ih =>
      rw [List.length_cons, ← Nat.add_assoc, List.map_cons, List.cons_append,
        search_exactPart] at hpath
      obtain ⟨hon, hpath⟩ : goesOn store base piece = true ∧ _ := by
        simpa only [List.mem_ite_nil_right] using hpath
      have hne : base = ⟨"."⟩ → piece ≠ "" :=
        fun hcurrent => ne_empty_of_goesOn (hcurrent ▸ hon)
      have hpieceSlash := hslash piece List.mem_cons_self
      have hnext := h.stepTo hpieceSlash (hnul piece List.mem_cons_self) hne
      obtain ⟨hread, hfound⟩ :=
        ih hnext (fun other hother => hslash other (.tail _ hother))
          (fun other hother => hnul other (.tail _ hother)) hpath
      refine ⟨⟨hslash, hnul, fun hcurrent => ?_⟩, hfound⟩
      by_cases hdot : piece = "."
      · have hstart : stepTo base piece = ⟨"."⟩ := by
          rw [hcurrent, hdot]; decide
        simpa [hdot] using hread.head_ne hstart
      · simpa [hdot] using hne hcurrent

theorem search_exactParts {pieces : List String} {base : Path} {absolute : Bool}
    {steps : List String} {rest : List Glob.Part} {fuel : Nat}
    (h : Stands base absolute steps) (hread : Stands.IsRead base pieces)
    (hsize : (pieces.foldl stepTo base).text.utf8ByteSize ≤ pathLimit)
    (hopen : IsOpen store (if absolute then [] else store.here)
      (steps ++ pieces.filter isStep)) :
    store.search keep (fuel + pieces.length) (pieces.map exactPart ++
      rest) base = store.search keep fuel rest (pieces.foldl stepTo base) := by
  induction pieces generalizing base steps with
  | nil => rfl
  | cons piece others ih =>
      have hpieceSlash := hread.no_slash piece List.mem_cons_self
      have hhead := Stands.isRead_head hread
      have htail := Stands.isRead_tail h hread
      have hnext :=
        h.stepTo hpieceSlash (hread.no_nul piece List.mem_cons_self) hhead
      have hnextSize := Nat.le_trans (hnext.foldl_stepTo htail).2 hsize
      have hbaseSize :=
        Nat.le_trans (h.size_le_stepTo hpieceSlash hhead) hnextSize
      have hsteps : steps ++ (piece :: others).filter isStep =
          (steps ++ [piece].filter isStep) ++ others.filter isStep := by
        rw [List.append_assoc, ← List.filter_append]
        rfl
      rw [hsteps] at hopen
      have hdirectory := isDirectory_of_stands hnext hnextSize hopen.left
      have hbase := isDirectory_of_stands h hbaseSize hopen.left.left
      rw [List.length_cons, ← Nat.add_assoc, List.map_cons, List.cons_append,
        search_exactPart, if_pos, ih hnext htail hsize hopen, List.foldl_cons]
      unfold goesOn
      split_ifs with hplain hdots
      · exact hbase
      · simp [has, find_of_isDirectory hdirectory, Except.isOk, Except.toBool]
      · have hstep := isStep_of_special hplain
        have hway :=
          (isOpen_concat_iff.1 (by simpa [hstep.1] using hopen.left)).2.2
        rw [List.contains_iff_mem, namesAt_eq, if_pos hbase, mem_namesIn,
          placeOf, h.startOf_eq, h.steps_eq]
        rw [stepFrom, if_neg hstep.2] at hway
        simp [hway]

/-! ## The pattern of a directory and a front -/

/-- A text that can stand in front of a star. -/
structure IsFront (front : String) : Prop where
  plain : front.toList.all (fun c => !Glob.isSpecial c) = true
  no_slash : '/' ∉ front.toList
  no_dot : front.toList.head? ≠ some '.'

theorem isFront_empty : IsFront "" := ⟨by decide, by decide, by decide⟩

private theorem beginsWithDot_frontPart {front : String} (h : IsFront front) :
    (frontPart front).beginsWithDot = false := by
  cases hchars : front.toList with
  | nil => simp [frontPart, hchars, Glob.Part.beginsWithDot]
  | cons c rest =>
      have hne : c ≠ '.' := by simpa [hchars] using h.no_dot
      unfold Glob.Part.beginsWithDot frontPart
      cases hspecial : Glob.isSpecial c <;> simp [hchars, Glob.exactToken,
        hspecial, hne]

/-- The names in a directory with a front are found, each one step behind the
path of the search. -/
theorem search_frontPart {base : Path} {front : String} {fuel : Nat}
    (hfront : IsFront front) :
    store.search (fun _ => true) (fuel + 2) [frontPart front] base =
      ((store.namesAt base).filter (beginsWith front)).map (stepTo base) := by
  have hnil : dotsFor base (frontPart front) = [] :=
    if_neg (by simp [beginsWithDot_frontPart hfront])
  have haccepts := Glob.accepts_frontPart front
  unfold frontPart at hnil haccepts ⊢
  simp only [search, hnil, ite_self, List.nil_append, haccepts, if_true]
  exact List.flatMap_singleton' _

def searchPath (path : Path) : Path :=
  (patternPieces path).foldl stepTo (searchStart path.isAbsolute)

def goesAstray (path : Path) : Bool :=
  !path.isAbsolute && (path.pieces.dropWhile (· = ".")).head? == some ""

def isSearchable (path : Path) : Bool :=
  !goesAstray path && (searchPath path).text.utf8ByteSize ≤ pathLimit

example :
    isSearchable ⟨"./out/job-0"⟩ = true ∧
    isSearchable ⟨".//out/job-0"⟩ = false := by decide

theorem filter_patternPieces (path : Path) :
    (patternPieces path).filter isStep = path.steps := by
  unfold patternPieces
  split_ifs with habsolute
  · obtain ⟨rest, hpieces⟩ :=
      List.head?_eq_some_iff.1 (Path.head?_pieces_of_isAbsolute habsolute)
    simp [Path.steps, hpieces, isStep]
  · rfl

theorem mem_pieces_of_mem_patternPieces {path : Path} {piece : String}
    (h : piece ∈ patternPieces path) : piece ∈ path.pieces := by
  unfold patternPieces at h
  split_ifs at h
  · exact List.mem_of_mem_tail h
  · exact h

variable {location : Path} {front : String}

theorem isRead_patternPieces_iff (hnul : '\x00' ∉ location.text.toList) :
    Stands.IsRead (searchStart location.isAbsolute) (patternPieces location) ↔
      goesAstray location = false := by
  have hslash : ∀ piece ∈ patternPieces location, '/' ∉ piece.toList :=
    fun piece hpiece =>
      Path.no_slash_of_mem_pieces (mem_pieces_of_mem_patternPieces hpiece)
  have hnuls : ∀ piece ∈ patternPieces location, '\x00' ∉ piece.toList :=
    fun piece hpiece hmem =>
      hnul
        (Path.mem_of_mem_pieces (mem_pieces_of_mem_patternPieces hpiece) hmem)
  have hhead : (searchStart location.isAbsolute = ⟨"."⟩ →
      ((patternPieces location).dropWhile (· = ".")).head? ≠ some "") ↔
        goesAstray location = false := by
    unfold goesAstray patternPieces searchStart
    cases location.isAbsolute <;> simp
  exact ⟨fun h => hhead.1 h.head_ne, fun h => ⟨hslash, hnuls, hhead.2 h⟩⟩

theorem stands_searchPath (hnul : '\x00' ∉ location.text.toList)
    (hread : goesAstray location = false) :
    Stands (searchPath location) location.isAbsolute location.steps := by
  have hstands := (stands_searchStart location.isAbsolute).foldl_stepTo
    ((isRead_patternPieces_iff hnul).2 hread)
  rw [List.nil_append, filter_patternPieces] at hstands
  exact hstands.1

theorem placeOf_searchPath (hnul : '\x00' ∉ location.text.toList)
    (hread : goesAstray location = false) (here : Place) :
    placeOf here (searchPath location) = placeOf here location := by
  have hstands := stands_searchPath hnul hread
  rw [placeOf, placeOf, hstands.startOf_eq, hstands.steps_eq, startOf]

theorem size_searchPath_le (hnul : '\x00' ∉ location.text.toList)
    (hread : goesAstray location = false) :
    (searchPath location).text.utf8ByteSize ≤ location.text.utf8ByteSize := by
  have hisRead := (isRead_patternPieces_iff hnul).2 hread
  have hstart := stands_searchStart location.isAbsolute
  have hone : ("/" : String).utf8ByteSize = 1 := by decide
  have hcost : (if location.isAbsolute then 1 else 0) +
      ((patternPieces location).map fun piece => piece.utf8ByteSize + 1).sum =
        location.text.utf8ByteSize + 1 := by
    rw [← location.sum_size_pieces, patternPieces]
    split_ifs with habsolute
    · obtain ⟨rest, hrest⟩ :=
        List.head?_eq_some_iff.1 (Path.head?_pieces_of_isAbsolute habsolute)
      simp [hrest]
    · simp
  unfold searchPath
  cases hpieces : patternPieces location with
  | nil =>
      rw [hpieces] at hcost
      cases habsolute : location.isAbsolute with
      | false => simp [habsolute] at hcost
      | true =>
          have hempty : location.text = "" := by simpa [habsolute] using hcost
          simp [Path.isAbsolute, hempty] at habsolute
  | cons piece rest =>
      rw [hpieces] at hisRead hcost
      have hslash := hisRead.no_slash piece List.mem_cons_self
      have hhead := Stands.isRead_head hisRead
      have hnext :=
        hstart.stepTo hslash (hisRead.no_nul piece List.mem_cons_self) hhead
      have hrest := hnext.size_foldl_le (Stands.isRead_tail hstart hisRead)
      have hfirst :
          (stepTo (searchStart location.isAbsolute) piece).text.utf8ByteSize =
          (if location.isAbsolute then 1 else 0) + piece.utf8ByteSize := by
        rw [hstart.stepTo_eq]
        cases location.isAbsolute with
        | false => simp [searchStart]
        | true =>
            simp [searchStart, Path.text_child _ hslash, Path.front, hone]
      rw [List.map_cons, List.sum_cons] at hcost
      rw [List.foldl_cons]
      omega

private theorem stepTo_searchPath (hsteps : location.steps ≠ [])
    (hnul : '\x00' ∉ location.text.toList)
    (hread : goesAstray location = false) :
    stepTo (searchPath location) = (searchPath location).child := by
  have hcurrent : (searchPath location).components ≠ [.current] := by
    intro hcurrent
    have hnil := (components_eq_current hcurrent).2
    rw [(stands_searchPath hnul hread).steps_eq] at hnil
    exact hsteps hnil
  exact funext fun name => by rw [stepTo, if_neg hcurrent]

theorem listing_patternIn (store : Store) (hne : location.text ≠ "")
    (hfront : IsFront front) :
    ∃ fuel, store.listing (Glob.patternIn location (front ++ "*")) =
      .ok
        (Path.sort
          (store.search
            (fun _ => true) (fuel + 2 + (patternPieces location).length)
        ((patternPieces location).map exactPart ++ [frontPart front])
        (searchStart location.isAbsolute))) := by
  obtain ⟨fuel, hfuel⟩ : ∃ fuel, ((patternPieces location).length + 1 + 1) *
      (store.nodes.size + 2) = fuel + 2 + (patternPieces location).length := by
    have hle :=
      Nat.le_mul_of_pos_right ((patternPieces location).length + 1 + 1)
        (by omega : 0 < store.nodes.size + 2)
    exact ⟨_,
      (Nat.sub_add_cancel
        (by omega : 2 + (patternPieces location).length ≤ _)).symm.trans
      (Nat.add_assoc ..).symm⟩
  refine ⟨fuel, ?_⟩
  rw [listing, Glob.ofText?_patternIn hne hfront.plain hfront.no_slash]
  simp [found, searchFuel, searchStart, hfuel]

/-- The pattern of a directory and a front finds the names in that directory
with that front in order, on the path of the search, when the search gets
there. -/
theorem listing_of_open (htree : IsTree store) (hsteps : location.steps ≠ [])
    (hnul : '\x00' ∉ location.text.toList) (hfront : IsFront front)
    (hsearch : isSearchable location = true)
    (hopen : IsOpen store (startOf store.here location) location.steps) :
    store.listing (Glob.patternIn location (front ++ "*")) =
      .ok
        (((store.namesIn (placeOf store.here location)).filter
          (beginsWith front)).map
        (searchPath location).child) := by
  rw [isSearchable, Bool.and_eq_true, decide_eq_true_iff, Bool.not_eq_true']
    at hsearch
  obtain ⟨hastray, hshort⟩ := hsearch
  have hopen' :
      IsOpen store
        (if location.isAbsolute then [] else store.here) location.steps :=
    hopen
  have hdirectory :=
    isDirectory_of_stands (stands_searchPath hnul hastray) hshort hopen'
  have hne : location.text ≠ "" :=
    fun hempty => hsteps (Path.steps_of_empty hempty)
  obtain ⟨fuel, hlisting⟩ := listing_patternIn store hne hfront
  rw [hlisting, search_exactParts (stands_searchStart location.isAbsolute)
    ((isRead_patternPieces_iff hnul).2 hastray) hshort
    (by simpa [filter_patternPieces])]
  change Except.ok
      (Path.sort (store.search _ (fuel + 2) _ (searchPath location))) = _
  rw [search_frontPart hfront, stepTo_searchPath hsteps hnul hastray,
    namesAt_eq, if_pos hdirectory, placeOf_searchPath hnul hastray, Path.sort,
    List.mergeSort_of_pairwise]
  have hsorted := store.sorted_namesIn (placeOf store.here location)
  refine List.pairwise_map.2 ((hsorted.filter _).imp_of_mem
    fun hname hname' hlt => ?_)
  have hisName :
      ∀ name ∈ (store.namesIn (placeOf store.here location)).filter
        (beginsWith front),
      IsName name := fun name hmem => htree.isName (List.mem_filter.1 hmem).1
  rw [Path.order_child _ (hisName _ hname) (hisName _ hname'), hlt]
  rfl

theorem listing_of_closed (hsteps : location.steps ≠ [])
    (hnul : '\x00' ∉ location.text.toList) (hfront : IsFront front)
    (hclosed : isSearchable location = true →
      ¬IsOpen store (startOf store.here location) location.steps) :
    store.listing (Glob.patternIn location (front ++ "*")) = .ok [] := by
  have hne : location.text ≠ "" :=
    fun hempty => hsteps (Path.steps_of_empty hempty)
  obtain ⟨fuel, hlisting⟩ := listing_patternIn store hne hfront
  rw [hlisting]
  congr 1
  rw [Path.sort, List.eq_nil_iff_forall_not_mem]
  intro path hpath
  rw [List.mem_mergeSort] at hpath
  obtain ⟨hread, hfound⟩ :=
    of_mem_search_exactParts (stands_searchStart location.isAbsolute)
      (fun piece hpiece =>
        Path.no_slash_of_mem_pieces (mem_pieces_of_mem_patternPieces hpiece))
    (fun piece hpiece hmem =>
      hnul
        (Path.mem_of_mem_pieces (mem_pieces_of_mem_patternPieces hpiece) hmem))
        hpath
  have hastray := (isRead_patternPieces_iff hnul).1 hread
  change path ∈ store.search _ (fuel + 2) _ (searchPath location) at hfound
  rw [search_frontPart hfront, namesAt_eq] at hfound
  split_ifs at hfound with hdirectory
  · obtain ⟨haccepted, hopen⟩ := isDirectory_iff.1 hdirectory
    have hstands := stands_searchPath hnul hastray
    rw [hstands.startOf_eq, hstands.steps_eq] at hopen
    exact hclosed (by simpa [isSearchable, hastray] using haccepted.short) hopen
  · simp at hfound

end JobChain.Store
