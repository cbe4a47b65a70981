import JobChain.Proofs.Store.Found
import JobChain.Proofs.Store.Sharing
import JobChain.Publication

/-!
# Listings of stores that share a part

A search passes the places that the path passes whose directory it looks for. So
a pattern finds the same in two stores that share this directory with its names,
and so does the input of a job.
-/

namespace JobChain

open Path (isStep)

namespace Store

open Glob (exactPart frontPart patternPieces)

variable {scope : Scope} {differ : Place → Content → Content → Prop}
  {store other : Store}

private theorem Stands.covers_iff {base : Path} {absolute : Bool}
    {steps : List String} (h : Stands base absolute steps) : scope.Covers base ↔
      ∀ passed ∈ walkFrom (if absolute then [] else scope.here) steps,
        scope.Admits passed := by
  rw [Scope.Covers, h.startOf_eq, h.steps_eq]

private theorem isAccepted_of_has {path : Path}
    (h : store.has path = true) : IsAccepted path := by
  unfold has at h
  cases hfind : store.find path with
  | error error => simp [hfind, Except.isOk, Except.toBool] at h
  | ok found =>
      exact (find_eq_ok_iff.1 (show store.find path = .ok (found.1, found.2)
        from hfind)).1

private theorem has_of_empty {path : Path}
    (h : path.text = "") : store.has path = false := by
  cases hhas : store.has path with
  | false => rfl
  | true => exact absurd h (isAccepted_of_has hhas).ne_empty

/-! ## Texts with the character of no name -/

private theorem exists_mem_patternPieces {path : Path} {c : Char}
    (hc : c ∈ path.text.toList) (hne : c ≠ '/') : ∃ piece ∈ patternPieces path,
    c ∈ piece.toList := by
  obtain ⟨piece, hpiece, hin⟩ := Path.exists_mem_pieces hc hne
  refine ⟨piece, ?_, hin⟩
  unfold patternPieces
  split_ifs with habsolute
  · obtain ⟨rest, hpieces⟩ :=
      List.head?_eq_some_iff.1 (Path.head?_pieces_of_isAbsolute habsolute)
    rw [hpieces] at hpiece ⊢
    rcases List.mem_cons.1 hpiece with rfl | hpiece
    · simp at hin
    · exact hpiece
  · exact hpiece

theorem no_slash_patternPieces {path : Path} : ∀ piece ∈ patternPieces path,
    '/' ∉ piece.toList :=
  fun _ hpiece =>
    Path.no_slash_of_mem_pieces (mem_pieces_of_mem_patternPieces hpiece)

private theorem no_nul_patternPieces {path : Path}
    (hnul : '\x00' ∉ path.text.toList) : ∀ piece ∈ patternPieces path,
    '\x00' ∉ piece.toList := fun _ hpiece hmem =>
  hnul (Path.mem_of_mem_pieces (mem_pieces_of_mem_patternPieces hpiece) hmem)

theorem not_goesOn_of_nul (htree : IsTree store) {base : Path} {piece : String}
    (hslash : '/' ∉ piece.toList) (hnul : '\x00' ∈ piece.toList) :
    goesOn store base piece ≠ true := by
  unfold goesOn
  split_ifs with hplain hdots
  · unfold isDots at hdots
    rcases Bool.or_eq_true_iff.1 hdots with hdot | hdot <;>
      exact absurd (of_decide_eq_true hdot ▸ hnul) (by decide)
  · intro hhas
    apply (isAccepted_of_has hhas).no_nul
    unfold stepTo
    split_ifs
    · exact hnul
    · rw [Path.text_child base hslash, String.toList_append]
      exact List.mem_append_right _ hnul
  · rw [Ne, List.contains_iff_mem, Store.namesAt_eq]
    split_ifs
    · exact fun hmem => (htree.isName hmem).no_nul hnul
    · exact List.not_mem_nil

private theorem search_of_nul (htree : IsTree store) {keep : Path → Bool}
    {pieces : List String} (hslash : ∀ piece ∈ pieces, '/' ∉ piece.toList)
    (hnul : ∃ piece ∈ pieces, '\x00' ∈ piece.toList) (rest : List Glob.Part)
    (fuel : Nat) (base : Path) :
    store.search keep (fuel + pieces.length) (pieces.map exactPart ++
      rest) base = [] := by
  induction pieces generalizing base with
  | nil => simp at hnul
  | cons piece others ih =>
      rw [List.length_cons, ← Nat.add_assoc, List.map_cons, List.cons_append,
        search_exactPart]
      by_cases hpiece : '\x00' ∈ piece.toList
      · exact if_neg
          (not_goesOn_of_nul htree (hslash piece List.mem_cons_self) hpiece)
      · obtain ⟨other, hother, hmem⟩ := hnul
        have hrest := (List.mem_cons.1 hother).resolve_left fun heq =>
          hpiece (heq ▸ hmem)
        rw [ih (fun other hother => hslash other (.tail _ hother))
          ⟨other, hrest, hmem⟩, ite_self]

/-! ## Searches -/

namespace Shares

theorem namesAt_eq (h : Shares scope differ store other) {base : Path}
    (hcovers : scope.Covers base)
    (hinner : ∀ name, scope.Admits (placeOf scope.here base ++ [name])) :
    other.namesAt base = store.namesAt base := by
  rw [Store.namesAt_eq, Store.namesAt_eq, (h.kind_eq hcovers).1, h.here_eq,
    h.here_eq', h.namesIn_eq hinner]

private theorem goesOn_eq (h : Shares scope differ store other) {base : Path}
    {piece : String} (hbase : scope.Covers base)
    (hnext : (stepTo base piece).text = "" ∨ scope.Covers (stepTo base piece))
    (hplace : isStep piece = true → piece ≠ ".." →
      scope.Admits (placeOf scope.here base ++ [piece])) :
    goesOn other base piece = goesOn store base piece := by
  unfold goesOn
  split_ifs with hplain hdots
  · exact (h.kind_eq hbase).1
  · rcases hnext with hempty | hnext
    · rw [has_of_empty hempty, has_of_empty hempty]
    · exact h.has_eq hnext
  · obtain ⟨hstep, hparent⟩ := isStep_of_special hplain
    rw [Store.namesAt_eq, Store.namesAt_eq, (h.kind_eq hbase).1, h.here_eq,
      h.here_eq']
    split_ifs
    · have hnone := h.none_iff (hplace hstep hparent)
      rw [Bool.eq_iff_iff, List.contains_iff_mem, List.contains_iff_mem,
        mem_namesIn, mem_namesIn, Option.isSome_iff_ne_none,
        Option.isSome_iff_ne_none, Ne, Ne, hnone]
    · rfl

private theorem search_eq (h : Shares scope differ store other) {front : String}
    (hfront : IsFront front) {pieces : List String} {base : Path}
    {absolute : Bool} {steps : List String}
    (hstands : Stands base absolute steps)
    (hslash : ∀ piece ∈ pieces, '/' ∉ piece.toList)
    (hnul : ∀ piece ∈ pieces, '\x00' ∉ piece.toList)
    (hway : ∀ passed ∈ walkFrom (if absolute then [] else scope.here)
      (steps ++ pieces.filter isStep), scope.Admits passed)
    (hinner : ∀ name,
      scope.Admits
        (placeFrom (if absolute then [] else scope.here)
          (steps ++ pieces.filter isStep) ++ [name])) (fuel fuel' : Nat) :
    other.search (fun _ => true) (fuel' + 2 + pieces.length)
        (pieces.map exactPart ++ [frontPart front]) base =
      store.search (fun _ => true) (fuel + 2 + pieces.length)
        (pieces.map exactPart ++ [frontPart front]) base := by
  induction pieces generalizing base steps with
  | nil =>
      have hplace : placeOf scope.here base =
          placeFrom (if absolute then [] else scope.here) steps := by
        rw [placeOf, hstands.startOf_eq, hstands.steps_eq]
      simp only [List.filter_nil, List.append_nil] at hway hinner
      simp only [List.map_nil, List.nil_append, List.length_nil, Nat.add_zero]
      rw [search_frontPart hfront, search_frontPart hfront,
        h.namesAt_eq (hstands.covers_iff.2 hway) (hplace ▸ hinner)]
  | cons piece rest ih =>
      have hpieceSlash := hslash piece List.mem_cons_self
      have hsteps : steps ++ (piece :: rest).filter isStep =
          (steps ++ [piece].filter isStep) ++ rest.filter isStep := by
        rw [List.append_assoc, ← List.filter_append]
        rfl
      rw [hsteps] at hway hinner
      have hreach : ∀ passed ∈ walkFrom (if absolute then [] else scope.here)
          (steps ++ [piece].filter isStep), scope.Admits passed :=
        fun passed hpassed => hway passed (mem_walkFrom_append_left hpassed _)
      have hstep := fun hne =>
        hstands.stepTo hpieceSlash (hnul piece List.mem_cons_self) hne
      have hon : goesOn other base piece = goesOn store base piece := by
        refine h.goesOn_eq (hstands.covers_iff.2 fun passed hpassed =>
          hreach passed (mem_walkFrom_append_left hpassed _)) ?_
            fun hisStep hparent => hreach _ ?_
        · by_cases hempty : base = ⟨"."⟩ ∧ piece = ""
          · exact .inl (by rw [hempty.1, hempty.2]; decide)
          · exact .inr
              ((hstep fun hcurrent hnil =>
                hempty ⟨hcurrent, hnil⟩).covers_iff.2 hreach)
        · rw [placeOf, hstands.startOf_eq, hstands.steps_eq,
            List.filter_cons_of_pos hisStep, List.filter_nil, walkFrom_concat,
            List.mem_append, stepFrom, if_neg hparent]
          exact .inr List.mem_cons_self
      simp only [List.length_cons, List.map_cons, List.cons_append,
        ← Nat.add_assoc]
      rw [search_exactPart, search_exactPart, hon]
      by_cases hgoes : goesOn store base piece = true
      · rw [if_pos hgoes, if_pos hgoes]
        exact ih (hstep fun hcurrent => ne_empty_of_goesOn (hcurrent ▸ hgoes))
          (fun other hother => hslash other (.tail _ hother))
          (fun other hother => hnul other (.tail _ hother)) hway hinner
      · rw [if_neg hgoes, if_neg hgoes]

theorem listing_eq (h : Shares scope differ store other) (htree : IsTree store)
    (htree' : IsTree other) {location : Path} {front : String}
    (hne : location.text ≠ "") (hfront : IsFront front)
    (hcovers : scope.Covers location)
    (hinner : ∀ name, scope.Admits (placeOf scope.here location ++ [name])) :
    other.listing (Glob.patternIn location (front ++ "*")) =
      store.listing (Glob.patternIn location (front ++ "*")) := by
  obtain ⟨fuel, hlisting⟩ := listing_patternIn store hne hfront
  obtain ⟨fuel', hlisting'⟩ := listing_patternIn other hne hfront
  rw [hlisting, hlisting']
  by_cases hnul : '\x00' ∈ location.text.toList
  · have hpiece := exists_mem_patternPieces hnul (by decide)
    rw [search_of_nul htree no_slash_patternPieces hpiece,
      search_of_nul htree' no_slash_patternPieces hpiece]
  · rw [h.search_eq hfront (stands_searchStart location.isAbsolute)
      no_slash_patternPieces (no_nul_patternPieces hnul)
      (by rw [List.nil_append, filter_patternPieces]; exact hcovers)
      (by rw [List.nil_append, filter_patternPieces]; exact hinner) fuel fuel']

end Shares

/-! ## What is found -/

/-- The path of a name that a search finds at the end of a path. -/
structure IsFoundIn (location : Path) (name : String) (path : Path) : Prop where
  isName : IsName name
  no_nul : '\x00' ∉ location.text.toList
  on_way : goesAstray location = false
  path_eq : path = stepTo (searchPath location) name

theorem IsFoundIn.stands {location path : Path} {name : String}
    (h : IsFoundIn location name path) :
    Stands path location.isAbsolute (location.steps ++ [name]) := by
  have hstands :=
    (stands_searchPath h.no_nul h.on_way).stepTo h.isName.no_slash
      h.isName.no_nul
    fun _ => h.isName.ne_empty
  rwa [List.filter_cons_of_pos (Path.isStep_name h.isName), List.filter_nil,
    ← h.path_eq] at hstands

theorem IsFoundIn.placeOf_eq {location path : Path} {name : String}
    (h : IsFoundIn location name path) (here : Place) :
    placeOf here path = placeOf here location ++ [name] := by
  rw [placeOf, h.stands.startOf_eq, h.stands.steps_eq, placeFrom_append,
    placeFrom_cons, placeFrom_nil, stepFrom_name h.isName]
  rfl

theorem IsFoundIn.covers {location path : Path} {name : String}
    (h : IsFoundIn location name path) (hcovers : scope.Covers location)
    (hinner : scope.Admits (placeOf scope.here location ++ [name])) :
    scope.Covers path := by
  refine h.stands.covers_iff.2 fun passed hpassed => ?_
  rw [walkFrom_concat, List.mem_append, List.mem_singleton] at hpassed
  rcases hpassed with hpassed | rfl
  · exact hcovers passed hpassed
  · rw [stepFrom_name h.isName]
    exact hinner

theorem of_mem_listing (htree : IsTree store) {location path : Path}
    {front : String} {paths : List Path} (hne : location.text ≠ "")
    (hfront : IsFront front)
    (h : store.listing (Glob.patternIn location (front ++ "*")) = .ok paths)
    (hpath : path ∈ paths) : ∃ name, beginsWith front name = true ∧
    IsFoundIn location name path := by
  obtain ⟨fuel, hlisting⟩ := listing_patternIn store hne hfront
  rw [hlisting] at h
  obtain rfl := Except.ok.inj h
  rw [Path.sort, List.mem_mergeSort] at hpath
  have hnul : '\x00' ∉ location.text.toList := by
    intro hnul
    rw [search_of_nul htree no_slash_patternPieces
      (exists_mem_patternPieces hnul (by decide))]
      at hpath
    cases hpath
  obtain ⟨hread, hfound⟩ :=
    of_mem_search_exactParts (stands_searchStart location.isAbsolute)
      no_slash_patternPieces (no_nul_patternPieces hnul) hpath
  rw [search_frontPart hfront] at hfound
  obtain ⟨name, hname, rfl⟩ := List.mem_map.1 hfound
  obtain ⟨hname, hbegins⟩ := List.mem_filter.1 hname
  rw [Store.namesAt_eq] at hname
  split_ifs at hname
  · exact ⟨name, hbegins, htree.isName hname, hnul,
      (isRead_patternPieces_iff hnul).1 hread, rfl⟩
  · cases hname

end Store

/-! ## Inputs -/

open Store

/-- A path that an input may consist of: the one that is named, or one in the
directory there. -/
def InputSpec.Finds (input : InputSpec) (path : Path) : Prop :=
  path = input.location ∨ ∃ name, IsFoundIn input.location name path

variable {scope : Scope} {differ : Place → Content → Content → Prop}
  {store other : Store}

theorem InputSpec.finds_of_files {input : InputSpec} (htree : IsTree store)
    {paths : List Path} (h : input.files store = .ok paths) : ∀ path ∈ paths,
    input.Finds path := by
  unfold files at h
  split_ifs at h with hfile hmissing
  · obtain rfl := Except.ok.inj h
    exact fun path hpath => .inl (List.mem_singleton.1 hpath)
  · have haccepted := isAccepted_of_has (by simpa using hmissing)
    rw [← String.empty_append (s := "*")] at h
    obtain ⟨listed, hlisting, h⟩ := bind_eq_ok_iff.1 h
    obtain rfl := Except.ok.inj h
    intro path hpath
    obtain ⟨name, -, hfound⟩ :=
      of_mem_listing htree haccepted.ne_empty isFront_empty hlisting
        (List.mem_filter.1 hpath).1
    exact .inr ⟨name, hfound⟩

theorem Store.Shares.files_eq (h : Shares scope differ store other)
    (htree : IsTree store) (htree' : IsTree other) {input : InputSpec}
    (hcovers : scope.Covers input.location)
    (hinner : ∀ name,
      scope.Admits (placeOf scope.here input.location ++ [name])) :
    input.files other = input.files store := by
  unfold InputSpec.files
  rw [(h.kind_eq hcovers).2, h.has_eq hcovers]
  split_ifs with hfile hmissing
  · rfl
  · rfl
  · have haccepted := isAccepted_of_has (by simpa using hmissing)
    have hlisting :
        other.listing (Glob.patternIn input.location ("" ++ "*")) = _ :=
      h.listing_eq htree htree' haccepted.ne_empty isFront_empty hcovers hinner
    rw [← String.empty_append (s := "*"), hlisting]
    cases hlisted :
      store.listing (Glob.patternIn input.location ("" ++ "*")) with
    | error error => rfl
    | ok listed =>
        have hfilter : ∀ path ∈ listed,
            other.isFile path = store.isFile path := by
          intro path hpath
          obtain ⟨name, -, hfound⟩ :=
            of_mem_listing htree haccepted.ne_empty isFront_empty hlisted hpath
          exact (h.kind_eq (hfound.covers hcovers (hinner name))).2
        change Except.ok (listed.filter fun path => other.isFile path &&
          isGraphInput path) =
            Except.ok (listed.filter fun path => store.isFile path &&
              isGraphInput path)
        rw [List.filter_congr fun path hpath => by rw [hfilter path hpath]]

end JobChain
