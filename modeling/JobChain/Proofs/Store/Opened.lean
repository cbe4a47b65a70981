import JobChain.Proofs.Store.Confined
import JobChain.Proofs.Store.SharedListings

/-!
# What searches open

A search reads the names in the directory that it looks for. To find a step
with a wildcard that stands for itself, it reads the names in the directory
before that step too. It opens no other directory.
-/

namespace JobChain

open Path (isStep)

namespace Store

open Glob (Part Pattern exactPart frontPart patternPieces)

def gather (parts : List (List Path × List Path)) : List Path × List Path :=
  (parts.flatMap Prod.fst, parts.flatMap Prod.snd)

def searchOpening (store : Store) (keep : Path → Bool) :
    Nat → List Part → Path → List Path × List Path
  | 0, _, _ => ([], [])
  | _, [], path => (if keep path then [path] else [], [])
  | fuel + 1, part :: rest, base =>
      match part with
      | .literal name =>
          let next := stepTo base name
          let found := if isDots name then store.isDirectory base
            else store.has next
          if found then searchOpening store keep fuel rest next else ([], [])
      | .wild _ =>
          let dots := if store.isDirectory base then dotsFor base part else []
          let named := (store.namesAt base).filter part.accepts
          let below := gather <|
            (dots ++ named.map (stepTo base)).map
              (searchOpening store keep fuel rest)
          (below.1, base :: below.2)
      | .deep =>
          let rest := rest.dropWhile (· = .deep)
          let below := gather <| (store.namesAt base).map fun name =>
            let next := stepTo base name
            let matched := match rest with
              | [] => (if store.isDirectory next then [next] else [], [])
              | head :: others =>
                  if head.accepts name then
                    searchOpening store keep fuel others next
                  else ([], [])
            let deeper :=
              if store.isDirectory next then
                searchOpening store keep fuel (.deep :: rest) next
              else ([], [])
            (matched.1 ++ deeper.1, matched.2 ++ deeper.2)
          (below.1, base :: below.2)

variable {store : Store} {keep : Path → Bool}

private theorem fst_searchOpening (fuel : Nat) (parts : List Part)
    (base : Path) :
    (store.searchOpening keep fuel parts base).1 =
      store.search keep fuel parts base := by
  induction fuel generalizing parts base with
  | zero => cases parts <;> rfl
  | succ fuel ih =>
      cases parts with
      | nil => rfl
      | cons part rest =>
          cases part with
          | literal name =>
              simp only [searchOpening, search, ← ih, apply_ite Prod.fst]
          | wild tokens =>
              simp only [searchOpening, search, gather, List.flatMap_map, ih]
          | deep =>
              simp only [searchOpening, search, gather, List.flatMap_map]
              congr 1
              funext name
              congr 1
              · cases rest.dropWhile (· = .deep) with
                | nil => rfl
                | cons head others => simp only [← ih, apply_ite Prod.fst]
              · simp only [← ih, apply_ite Prod.fst]

/-- The directories whose names the search for a pattern reads. -/
def opened (store : Store) (pattern : String) : List Path :=
  match Pattern.ofText? pattern with
  | none => []
  | some read =>
      (store.searchOpening (fun path => !read.directories ||
        store.isDirectory path) (store.searchFuel read) read.parts
          (searchStart read.absolute)).2

theorem listing_eq_searchOpening {pattern : String} {read : Pattern}
    (h : Pattern.ofText? pattern = some read) :
    let searched := store.searchOpening
      (fun path => !read.directories || store.isDirectory path)
      (store.searchFuel read) read.parts (searchStart read.absolute)
    store.listing pattern = .ok (Path.sort searched.1) ∧
    store.opened pattern = searched.2 := by
  refine ⟨?_, ?_⟩
  · rw [listing, h]
    simp only [fst_searchOpening]
    rfl
  · rw [opened, h]

/-! ## Piece by piece -/

def hasWildcard (name : String) : Bool :=
  !name.toList.all fun c => !Glob.isSpecial c

private theorem opened_exactPart (piece : String) (rest : List Part)
    (fuel : Nat) (base : Path) :
    (store.searchOpening keep (fuel + 1) (exactPart piece :: rest) base).2 =
      (if hasWildcard piece then [base] else []) ++
        if goesOn store base piece then
          (store.searchOpening keep fuel rest (stepTo base piece)).2
        else [] := by
  have haccepts := Glob.accepts_exactPart piece
  unfold exactPart at haccepts ⊢
  unfold goesOn hasWildcard
  split_ifs at haccepts with hplain
  · rw [if_pos hplain, if_pos hplain, hplain]
    simp only [searchOpening, Bool.not_true, Bool.false_eq_true, if_false,
      List.nil_append]
    split_ifs <;> rfl
  · have hdots := isStep_of_special hplain
    have hnil : dotsFor base (.wild (piece.toList.map Glob.exactToken)) =
        [] := by
      apply dotsFor_eq_nil
      · rw [haccepts, decide_eq_false_iff_not]
        rintro rfl
        simp [isStep] at hdots
      · simpa [haccepts] using hdots.2.symm
    have hfilter := store.filter_namesAt base piece
    rw [if_neg hplain, if_neg hplain]
    simp only [searchOpening, hnil, ite_self, List.nil_append, haccepts,
      hfilter, List.contains_iff_mem, hplain]
    split_ifs <;> simp_all [gather]

private theorem opened_frontPart (front : String) (fuel : Nat) (base : Path) :
    (store.searchOpening keep (fuel + 2) [frontPart front] base).2 =
      [base] := by
  unfold frontPart
  simp only [searchOpening, gather, List.cons.injEq, true_and,
    List.flatMap_eq_nil_iff]
  intro part hpart
  obtain ⟨path, -, rfl⟩ := List.mem_map.1 hpart
  rfl

private theorem stands_of_mem_opened (htree : IsTree store) {front : String}
    {pieces : List String} {base path : Path} {absolute : Bool}
    {steps : List String} {fuel : Nat} (h : Stands base absolute steps)
    (hslash : ∀ piece ∈ pieces, '/' ∉ piece.toList)
    (hpath : path ∈
      (store.searchOpening keep (fuel + 2 + pieces.length)
        (pieces.map exactPart ++ [frontPart front]) base).2) :
    ∃ before after, pieces.filter isStep = before ++ after ∧
      Stands path absolute (steps ++ before) ∧
      ∀ name, after.head? = some name → hasWildcard name = true := by
  induction pieces generalizing base steps with
  | nil =>
      change path ∈
          (store.searchOpening keep (fuel + 2) [frontPart front] base).2
            at hpath
      rw [opened_frontPart, List.mem_singleton] at hpath
      subst hpath
      exact ⟨[], [], rfl, by simpa using h, by simp⟩
  | cons piece others ih =>
      have hpiece := hslash piece List.mem_cons_self
      rw [List.length_cons, ← Nat.add_assoc, List.map_cons, List.cons_append,
        opened_exactPart, List.mem_append] at hpath
      rcases hpath with hpath | hpath
      · cases hwild : hasWildcard piece with
        | false => simp [hwild] at hpath
        | true =>
            obtain rfl : path = base := by simpa [hwild] using hpath
            have hstep :=
              (isStep_of_special (by simpa [hasWildcard] using hwild)).1
            refine ⟨[], (piece :: others).filter isStep, rfl, by simpa using h,
              fun name hname => ?_⟩
            rw [List.filter_cons_of_pos hstep, List.head?_cons] at hname
            obtain rfl := Option.some.inj hname
            exact hwild
      · split_ifs at hpath with hon
        · have hne : base = ⟨"."⟩ → piece ≠ "" :=
            fun hcurrent => ne_empty_of_goesOn (hcurrent ▸ hon)
          have hnul : '\x00' ∉ piece.toList :=
            fun hnul => not_goesOn_of_nul htree hpiece hnul hon
          obtain ⟨before, after, hsplit, hstands, hnext⟩ :=
            ih (h.stepTo hpiece hnul hne)
              (fun other hother => hslash other (.tail _ hother)) hpath
          refine ⟨[piece].filter isStep ++ before, after, ?_, ?_, hnext⟩
          · rw [List.append_assoc, ← hsplit, ← List.filter_append]
            rfl
          · rwa [← List.append_assoc]
        · cases hpath

/-- A directory that a search for what a path holds may open: the one that the
path leads to, or one on the way whose next step holds a wildcard. -/
def OpensFor (here : Place) (location opened : Path) : Prop :=
  ∃ before after, location.steps = before ++ after ∧
    placeOf here opened = placeFrom (startOf here location) before ∧
    ∀ name, after.head? = some name → hasWildcard name = true

private theorem opensFor_of_mem_opened (htree : IsTree store)
    {location path : Path} {front : String} (hne : location.text ≠ "")
    (hfront : IsFront front)
    (hpath : path ∈ store.opened (Glob.patternIn location (front ++ "*"))) :
    OpensFor store.here location path := by
  have hread := Glob.ofText?_patternIn hne hfront.plain hfront.no_slash
  obtain ⟨fuel, hfuel⟩ : ∃ fuel, ((patternPieces location).length + 1 + 1) *
      (store.nodes.size + 2) = fuel + 2 + (patternPieces location).length := by
    have hle :=
      Nat.le_mul_of_pos_right ((patternPieces location).length + 1 + 1)
        (by omega : 0 < store.nodes.size + 2)
    exact ⟨_,
      (Nat.sub_add_cancel
        (by omega : 2 + (patternPieces location).length ≤ _)).symm.trans
      (Nat.add_assoc ..).symm⟩
  rw [opened, hread] at hpath
  simp only [searchFuel, List.length_append, List.length_map,
    List.length_singleton, hfuel]
    at hpath
  obtain ⟨before, after, hsplit, hstands, hnext⟩ := stands_of_mem_opened htree
    (stands_searchStart location.isAbsolute) no_slash_patternPieces hpath
  refine ⟨before, after, (filter_patternPieces location).symm.trans hsplit,
    ?_, hnext⟩
  rw [placeOf, hstands.startOf_eq, hstands.steps_eq]
  rfl

/-! ## Below a directory -/

structure GoesOnFrom (base location : Path) : Prop where
  isAbsolute_eq : location.isAbsolute = base.isAbsolute
  steps_eq : ∃ rest, location.steps = base.steps ++ rest ∧ ".." ∉ rest

theorem goesOnFrom_join {base path : Path} (hne : base.text ≠ "")
    (h : path.isConfined = true) : GoesOnFrom base (base.join path) := by
  obtain ⟨habsolute, -, hparent⟩ := Path.isConfined_iff.1 h
  exact ⟨Path.isAbsolute_join hne habsolute, path.steps,
    Path.steps_join hne habsolute, hparent⟩

theorem GoesOnFrom.child {base location : Path} (h : GoesOnFrom base location)
    {name : String} (hslash : '/' ∉ name.toList) (hparent : name ≠ "..") :
    GoesOnFrom base (location.child name) := by
  obtain ⟨rest, hsteps, hrest⟩ := h.steps_eq
  refine ⟨(Path.isAbsolute_child location hslash).trans h.isAbsolute_eq,
    rest ++ [name].filter isStep, ?_, ?_⟩
  · rw [Path.steps_child location hslash, hsteps, List.append_assoc]
  · rw [List.mem_append, not_or]
    refine ⟨hrest, fun hmem => hparent ?_⟩
    exact (List.mem_singleton.1 (List.mem_filter.1 hmem).1).symm

private theorem GoesOnFrom.text_ne_empty {here : Place} {base location : Path}
    (h : GoesOnFrom base location)
    (hbelow : location.LeadsBelow here (placeOf here base)) :
    location.text ≠ "" := by
  intro hempty
  obtain ⟨rest, hsteps, -⟩ := h.steps_eq
  rw [Path.steps_of_empty hempty] at hsteps
  obtain ⟨hbase, -⟩ := List.append_eq_nil_iff.1 hsteps.symm
  have hplace : placeOf here location = placeOf here base := by
    rw [placeOf, placeOf, startOf, startOf, h.isAbsolute_eq,
      Path.steps_of_empty hempty, hbase]
  exact (isBelow_iff.1 hbelow).2 hplace.symm

/-- A directory strictly below a base, or the base or one on the way to it whose
next step in a path holds a wildcard. -/
def OpensNear (here : Place) (base location opened : Path) : Prop :=
  opened.LeadsBelow here (placeOf here base) ∨
    ∃ before name after, location.steps = before ++ name :: after ∧
      hasWildcard name = true ∧ before <+: base.steps ∧
      placeOf here opened = placeFrom (startOf here base) before

theorem OpensFor.near {here : Place} {base location opened : Path}
    (h : OpensFor here location opened) (hon : GoesOnFrom base location)
    (hbelow : location.LeadsBelow here (placeOf here base)) :
    OpensNear here base location opened := by
  obtain ⟨before, after, hsteps, hplace, hnext⟩ := h
  obtain ⟨rest, hrest, hparent⟩ := hon.steps_eq
  have hstart : startOf here location = startOf here base := by
    rw [startOf, startOf, hon.isAbsolute_eq]
  cases after with
  | nil =>
      left
      rw [Path.LeadsBelow, hplace, ← List.append_nil before, ← hsteps]
      exact hbelow
  | cons name after =>
      rw [hstart] at hplace
      rcases List.append_eq_append_iff.1 (hsteps.symm.trans hrest) with
        ⟨behind, hbase, -⟩ | ⟨behind, rfl, hbehind⟩
      · exact .inr ⟨before, name, after, hsteps, hnext name rfl,
          ⟨behind, hbase.symm⟩, hplace⟩
      · by_cases hnil : behind = []
        · subst hnil
          exact .inr ⟨_, name, after, hsteps, hnext name rfl, by simp, hplace⟩
        · left
          have hback : ".." ∉ behind := fun hmem =>
            hparent (hbehind ▸ List.mem_append_left _ hmem)
          rw [Path.LeadsBelow, hplace, placeFrom_append,
            placeFrom_of_no_parent hback, isBelow_iff]
          exact ⟨List.prefix_append .., by simpa [placeOf] using hnil⟩

theorem near_of_mem_opened (htree : IsTree store) {base location path : Path}
    {front : String} (hfront : IsFront front) (hon : GoesOnFrom base location)
    (hbelow : location.LeadsBelow store.here (placeOf store.here base))
    (hpath : path ∈ store.opened (Glob.patternIn location (front ++ "*"))) :
    OpensNear store.here base location path :=
  (opensFor_of_mem_opened htree (hon.text_ne_empty hbelow) hfront hpath).near
    hon hbelow

end Store

end JobChain
