import JobChain.Proofs.Store.Enclosing
import JobChain.Proofs.Store.Found
import Mathlib.Data.List.Nodup
import Mathlib.Data.List.Perm.Subperm

/-!
# Everything below a directory

The names that lead from a place to what is below it, level by level. In a tree
no way is longer than the number of nodes, so as many levels are enough for all.
The pattern of everything below a directory finds just these ways, each once.
-/

namespace JobChain.Store

open Path (isStep)

variable {store : Store} {place : Place} {way : List String} {depth : Nat}

/-! ## Ways down -/

def waysBelow (store : Store) : Nat → Place → List (List String)
  | 0, _ => []
  | depth + 1, place => (store.namesIn place).flatMap fun name =>
      [name] :: (waysBelow store depth (place ++ [name])).map (name :: ·)

private theorem ne_nil_of_mem_waysBelow
    (h : way ∈ store.waysBelow depth place) : way ≠ [] := by
  cases depth with
  | zero => simp [waysBelow] at h
  | succ depth =>
      obtain ⟨name, -, h⟩ := List.mem_flatMap.1 h
      rcases List.mem_cons.1 h with rfl | h
      · simp
      · obtain ⟨rest, -, rfl⟩ := List.mem_map.1 h
        simp

theorem mem_waysBelow (htree : IsTree store) :
    way ∈ store.waysBelow depth place ↔
      way ≠ [] ∧ way.length ≤ depth ∧ store.node? (place ++ way) ≠ none := by
  induction depth generalizing place way with
  | zero =>
      refine ⟨fun h => by simp [waysBelow] at h, fun ⟨hne, hlength, _⟩ => ?_⟩
      exact absurd (List.length_eq_zero_iff.1 (Nat.le_zero.1 hlength)) hne
  | succ depth ih =>
      simp only [waysBelow, List.mem_flatMap, List.mem_cons, List.mem_map, ih,
        mem_namesIn, Option.isSome_iff_ne_none, List.append_assoc]
      constructor
      · rintro ⟨name, hname, rfl | ⟨rest, ⟨-, hlength, hrest⟩, rfl⟩⟩
        · exact ⟨by simp, by simp, hname⟩
        · exact ⟨by simp, by simpa using hlength, hrest⟩
      · rintro ⟨hne, hlength, hnode⟩
        obtain ⟨name, rest, rfl⟩ := List.exists_cons_of_ne_nil hne
        by_cases hrest : rest = []
        · exact ⟨name, by simpa [hrest] using hnode, .inl (by rw [hrest])⟩
        · have hdirectory : store.node? (place ++ [name]) = some .directory :=
            htree.directory_around ⟨rest, by simp⟩
              (by simpa using Ne.symm hrest) hnode
          exact ⟨name, by
            simp [hdirectory],
              .inr ⟨rest, ⟨hrest, by simpa using hlength, hnode⟩, rfl⟩⟩

theorem nodup_waysBelow (store : Store) (depth : Nat) (place : Place) :
    (store.waysBelow depth place).Nodup := by
  induction depth generalizing place with
  | zero => exact List.nodup_nil
  | succ depth ih =>
      refine List.nodup_flatMap.2 ⟨fun name _ => List.nodup_cons.2 ⟨?_, ?_⟩, ?_⟩
      · intro h
        obtain ⟨rest, hrest, heq⟩ := List.mem_map.1 h
        exact ne_nil_of_mem_waysBelow hrest (List.cons.inj heq).2
      · exact (ih _).map fun x y h => (List.cons.inj h).2
      · have hhead : ∀ name, ∀ way ∈ [name] ::
            (store.waysBelow depth (place ++ [name])).map (name :: ·),
            way.head? = some name := by
          intro name way hway
          rcases List.mem_cons.1 hway with rfl | hway
          · rfl
          · obtain ⟨rest, -, rfl⟩ := List.mem_map.1 hway
            rfl
        refine (store.nodup_namesIn place).imp
          fun {name name'} hne way hway hway' => hne ?_
        exact Option.some.inj
          ((hhead name way hway).symm.trans (hhead name' way hway'))

/-- In a tree all fronts of a place are nodes, so none is deeper than there are
nodes. -/
theorem length_le_size (htree : IsTree store)
    (hplace : store.node? place ≠ none) : place.length ≤ store.nodes.size := by
  let fronts := (List.range place.length).map fun n => place.take (n + 1)
  have hnodup : fronts.Nodup := by
    refine List.nodup_range.map_on fun n hn m hm h => ?_
    have hlength := congrArg List.length h
    rw [List.mem_range] at hn hm
    simp only [List.length_take] at hlength
    omega
  have hkeys : fronts ⊆ store.nodes.toList.map Prod.fst := by
    intro front hfront
    obtain ⟨n, hn, rfl⟩ := List.mem_map.1 hfront
    rw [List.mem_range] at hn
    have hne : place.take (n + 1) ≠ [] := by
      rw [Ne, List.take_eq_nil_iff]
      rintro (h | rfl)
      · omega
      · simp at hn
    have hnode : store.node? (place.take (n + 1)) ≠ none := by
      by_cases hwhole : place.take (n + 1) = place
      · rwa [hwhole]
      · simp [htree.directory_around (List.take_prefix _ _) hwhole hplace]
    obtain ⟨node, hnode⟩ := Option.ne_none_iff_exists'.1 hnode
    rw [node?, if_neg hne, SortedMap.get?_eq_some_iff] at hnode
    exact List.mem_map_of_mem hnode
  have hle := (hnodup.subperm hkeys).length_le
  simpa [fronts, SortedMap.size, SortedMap.toList] using hle

theorem isName_of_way (htree : IsTree store)
    (h : store.node? (place ++ way) ≠ none) : ∀ name ∈ way, IsName name :=
  fun name hname => htree.names _ h name (List.mem_append_right _ hname)

private theorem isOpen_below (htree : IsTree store) {start : Place}
    {steps : List String} (hopen : IsOpen store start steps)
    (hway : store.node? (placeFrom start steps ++ way) = some .directory) :
    IsOpen store start (steps ++ way) ∧
      placeFrom start (steps ++ way) = placeFrom start steps ++ way := by
  induction way using List.reverseRecOn with
  | nil => simpa using hopen
  | append_singleton front name ih =>
      have hname : IsName name :=
        isName_of_way htree (by rw [hway]; simp) name (by simp)
      rw [← List.append_assoc] at hway
      obtain ⟨hfront, hplace⟩ := ih (htree.around _ _ (by rw [hway]; simp))
      rw [← List.append_assoc]
      have hlast : placeFrom start (steps ++ front ++ [name]) =
          placeFrom start steps ++ front ++ [name] := by
        rw [placeFrom_append, hplace, placeFrom_cons, placeFrom_nil,
          stepFrom_name hname]
      refine ⟨isOpen_concat_iff.2 ⟨hfront, hname.short,
        ?_⟩, by rw [hlast, List.append_assoc]⟩
      rw [hplace, stepFrom_name hname]
      exact hway

/-! ## Where a search comes to -/

namespace Stands

variable {base : Path} {absolute : Bool} {steps : List String} {name : String}

private theorem pieces_stepTo (h : Stands base absolute steps)
    (hname : IsName name) : ∃ before :
    List String, before.filter isStep = steps ∧
      (Store.stepTo base name).pieces = before ++ [name] := by
  rw [h.stepTo_eq]
  split_ifs with hcurrent
  · refine ⟨[], ?_, Path.pieces_of_no_slash hname.no_slash⟩
    rw [← h.steps_eq, hcurrent]
    decide
  · obtain ⟨before, hbefore, hpieces⟩ := base.pieces_child
    exact ⟨before, hbefore.trans h.steps_eq, hpieces name hname.no_slash⟩

private theorem stepTo_name (h : Stands base absolute steps)
    (hname : IsName name) :
    Stands (Store.stepTo base name) absolute (steps ++ [name]) := by
  have hnext := h.stepTo hname.no_slash hname.no_nul fun _ => hname.ne_empty
  rwa [List.filter_cons_of_pos (Path.isStep_name hname), List.filter_nil]
    at hnext

theorem foldl_stepTo_names (h : Stands base absolute steps)
    (hnames : ∀ name ∈ way, IsName name) :
    Stands (way.foldl Store.stepTo base) absolute (steps ++ way) := by
  induction way generalizing base steps with
  | nil => simpa using h
  | cons name rest ih =>
      obtain ⟨hname, hrest⟩ := List.forall_mem_cons.1 hnames
      have hall := ih (h.stepTo_name hname) hrest
      rwa [List.append_assoc] at hall

theorem isRead_names
    (hnames : ∀ name ∈ way, IsName name) : IsRead base way where
  no_slash name hname := (hnames name hname).no_slash
  no_nul name hname := (hnames name hname).no_nul
  head_ne _ hhead := by
    have hmem := (List.dropWhile_sublist _).subset (List.mem_of_mem_head? hhead)
    exact (hnames "" hmem).ne_empty rfl

private theorem find_stepTo (h : Stands base absolute steps)
    (hname : IsName name)
    (hsize : (Store.stepTo base name).text.utf8ByteSize ≤ pathLimit)
    (hopen : IsOpen store (if absolute then [] else store.here) steps)
    {node : Node}
    (hnode : store.node?
      (placeFrom (if absolute then [] else store.here) steps ++ [name]) =
      some node) :
    store.find (Store.stepTo base name) =
      .ok (placeFrom (if absolute then [] else store.here) steps ++ [name],
        node) := by
  have hnext := h.stepTo_name hname
  obtain ⟨before, hbefore, hpieces⟩ := h.pieces_stepTo hname
  have hplace : placeOf store.here (Store.stepTo base name) =
      placeFrom (if absolute then [] else store.here) steps ++ [name] := by
    rw [placeOf_of_name hname hpieces, hnext.startOf_eq, hbefore]
  have hway :
      IsOpen store (startOf store.here (Store.stepTo base name))
        (before.filter isStep) := by
    rwa [hnext.startOf_eq, hbefore]
  rw [find_of_name hname hpieces ⟨hnext.no_nul, hnext.ne_empty, hsize⟩ hway,
    hplace, hnode]

end Stands

/-! ## The search -/

variable {base : Path} {absolute : Bool} {steps : List String}

/-- No path on the way to what is below one is too long. -/
def Fits (store : Store) (base : Path) (place : Place) : Prop :=
  ∀ way, store.node? (place ++ way) ≠ none →
    (way.foldl stepTo base).text.utf8ByteSize ≤ pathLimit

theorem Fits.stepTo (h : Fits store base place) (name : String) :
    Fits store (stepTo base name) (place ++ [name]) := fun way hway =>
  h (name :: way) (by simpa using hway)

theorem fits_of_nodes (hbase : base.text.utf8ByteSize ≤ pathLimit)
    (h : ∀ entry ∈ store.nodes.toList, place <+: entry.1 →
      ((entry.1.drop place.length).foldl stepTo base).text.utf8ByteSize ≤
        pathLimit) : Fits store base place := by
  intro way hway
  by_cases hroot : place ++ way = []
  · rwa [(List.append_eq_nil_iff.1 hroot).2]
  · obtain ⟨node, hnode⟩ := Option.ne_none_iff_exists'.1 hway
    rw [node?, if_neg hroot, SortedMap.get?_eq_some_iff] at hnode
    simpa using h _ hnode (List.prefix_append ..)

private theorem accepts_any (name : String) :
    Glob.Part.accepts name (.wild [.star]) = true := by
  rw [Glob.Part.accepts, Glob.acceptsByRows_eq, Glob.accepts_star]

private theorem search_deep (depth : Nat) (base : Path) :
    store.search (fun _ => true) (depth + 1) [.deep, .wild [.star]] base =
      (store.namesAt base).flatMap fun name =>
        store.search (fun _ => true) depth [] (stepTo base name) ++
          if store.isDirectory (stepTo base name) = true then
            store.search (fun _ => true) depth [.deep,
              .wild [.star]] (stepTo base name)
          else [] := by
  simp [search, accepts_any]

/-- The search for everything below a directory comes to the end of each way
down, level by level. -/
theorem search_below (htree : IsTree store) (h : Stands base absolute steps)
    (hopen : IsOpen store (if absolute then [] else store.here) steps)
    (hfits : Fits store base
      (placeFrom (if absolute then [] else store.here) steps)) (depth : Nat) :
    store.search (fun _ => true) (depth + 1) [.deep, .wild [.star]] base =
      (store.waysBelow depth
        (placeFrom (if absolute then [] else store.here) steps)).map fun way =>
          way.foldl stepTo base := by
  induction depth generalizing base steps with
  | zero =>
      rw [search_deep]
      simp [search, waysBelow]
  | succ depth ih =>
      set here := placeFrom (if absolute then [] else store.here) steps
        with hhere
      have hplace : store.node? here = some .directory :=
        hopen.directories _ (placeFrom_mem_walkFrom _ _)
      have hdirectory : store.isDirectory base = true :=
        isDirectory_of_stands h (hfits [] (by simp [hplace])) hopen
      rw [search_deep, waysBelow, List.map_flatMap, namesAt_eq,
        if_pos hdirectory, placeOf, h.startOf_eq, h.steps_eq, ← hhere]
      refine List.flatMap_congr fun name hmem => ?_
      have hname : IsName name := htree.isName hmem
      have hnode : store.node? (here ++ [name]) ≠ none :=
        Option.isSome_iff_ne_none.1 (mem_namesIn.1 hmem)
      have hfirst :
          store.search (fun _ => true) (depth + 1) [] (stepTo base name) =
          [stepTo base name] := rfl
      rw [hfirst, List.map_cons, List.map_map, List.singleton_append]
      refine congrArg _ ?_
      cases hkind : store.node? (here ++ [name]) with
      | none => exact absurd hkind hnode
      | some node =>
          have hfound := h.find_stepTo hname (hfits [name] hnode) hopen hkind
          cases node with
          | file content =>
              have hnone : store.waysBelow depth (here ++ [name]) = [] := by
                refine List.eq_nil_iff_forall_not_mem.2 fun way hway => ?_
                obtain ⟨hne, -, hbelow⟩ := (mem_waysBelow htree).1 hway
                refine hbelow (htree.eq_none_below (List.prefix_append ..) ?_
                  (by simp [hkind]))
                simpa using hne
              simp [isDirectory, hfound, hnone]
          | directory =>
              have hstep :
                  placeFrom (if absolute then [] else store.here) (steps ++
                    [name]) =
                  here ++ [name] := by
                rw [placeFrom_append, ← hhere, placeFrom_cons, placeFrom_nil,
                  stepFrom_name hname]
              have hdeeper := ih (h.stepTo_name hname)
                (isOpen_concat_iff.2
                  ⟨hopen,
                    hname.short, by rw [← hhere, stepFrom_name hname, hkind]⟩)
                (hstep ▸ hfits.stepTo name)
              rw [if_pos (by simp [isDirectory, hfound]), hdeeper, hstep]
              rfl

def isFileBelow (store : Store) (place : Place) (way : List String) : Bool :=
  match store.node? (place ++ way) with
  | some (.file _) => true
  | _ => false

theorem isFileBelow_iff : store.isFileBelow place way = true ↔
    ∃ content, store.node? (place ++ way) = some (.file content) := by
  unfold isFileBelow
  split <;> simp_all

theorem isFile_foldl_stepTo (htree : IsTree store)
    (h : Stands base absolute steps)
    (hopen : IsOpen store (if absolute then [] else store.here) steps)
    (hfits : Fits store base
      (placeFrom (if absolute then [] else store.here) steps))
    (hne : way ≠ [])
    (hway : store.node?
      (placeFrom (if absolute then [] else store.here) steps ++ way) ≠ none) :
    store.isFile (way.foldl stepTo base) =
      store.isFileBelow (placeFrom (if absolute then [] else store.here) steps)
        way := by
  obtain ⟨front, name, rfl⟩ := (List.eq_nil_or_concat' way).resolve_left hne
  have hnames := isName_of_way htree hway
  have hdirectory := htree.around _ _ (by rwa [List.append_assoc])
  obtain ⟨hfront, hplace⟩ := isOpen_below htree hopen hdirectory
  have hstands := h.foldl_stepTo_names fun name hname =>
    hnames name (List.mem_append_left _ hname)
  have hsize := hfits _ hway
  obtain ⟨node, hnode⟩ := Option.ne_none_iff_exists'.1 hway
  rw [List.foldl_append] at hsize ⊢
  have hfound := hstands.find_stepTo (hnames name (by simp)) hsize hfront
    (by rw [hplace, List.append_assoc, hnode])
  simp only [List.foldl_cons, List.foldl_nil, isFile, isFileBelow,
    hfound, hnode]
  cases node <;> rfl

/-! ## The listing -/

variable {location : Path}

private theorem listing_patternIn_below (store : Store)
    (hne : location.text ≠ "") : ∃ depth, store.nodes.size ≤ depth ∧
    store.listing (Glob.patternIn location "**/*") =
      .ok
        (Path.sort
          (store.search
            (fun _ => true) (depth + 1 + (Glob.patternPieces location).length)
        ((Glob.patternPieces location).map Glob.exactPart ++ [.deep,
          .wild [.star]])
        (searchStart location.isAbsolute))) := by
  obtain ⟨depth, hdepth, hfuel⟩ : ∃ depth, store.nodes.size ≤ depth ∧
      ((Glob.patternPieces location).length + 2 + 1) * (store.nodes.size + 2) =
        depth + 1 + (Glob.patternPieces location).length := by
    have hle := Nat.le_mul_of_pos_right (Glob.patternPieces location).length
      (by omega : 0 < store.nodes.size + 2)
    have hsplit : ((Glob.patternPieces location).length + 2 + 1) *
        (store.nodes.size + 2) =
        (Glob.patternPieces location).length * (store.nodes.size + 2) + 3 *
        (store.nodes.size + 2) := by
      rw [Nat.add_assoc, Nat.add_mul]
    refine ⟨((Glob.patternPieces location).length + 2 + 1) *
      (store.nodes.size + 2) -
      (1 + (Glob.patternPieces location).length), ?_, ?_⟩ <;> omega
  refine ⟨depth, hdepth, ?_⟩
  rw [listing, Glob.ofText?_patternIn_below hne]
  simp [found, searchFuel, searchStart, hfuel]

theorem listing_below (htree : IsTree store)
    (hread : goesAstray location = false)
    (hdirectory : store.isDirectory location = true)
    (hfits : Fits store (searchPath location) (placeOf store.here location)) :
    ∃ depth, store.nodes.size ≤ depth ∧
      store.listing (Glob.patternIn location "**/*") =
      .ok (Path.sort ((store.waysBelow depth (placeOf store.here location)).map
        fun way => way.foldl stepTo (searchPath location))) := by
  obtain ⟨haccepted, hopen⟩ := isDirectory_iff.1 hdirectory
  obtain ⟨depth, hdepth, hlisting⟩ :=
    listing_patternIn_below store haccepted.ne_empty
  have hshort :=
    Nat.le_trans (size_searchPath_le haccepted.no_nul hread) haccepted.short
  have hopen' :
      IsOpen store
        (if location.isAbsolute then [] else store.here) location.steps := hopen
  refine ⟨depth, hdepth, ?_⟩
  rw [hlisting, search_exactParts (stands_searchStart location.isAbsolute)
    ((isRead_patternPieces_iff haccepted.no_nul).2 hread) hshort
    (by simpa [filter_patternPieces])]
  exact congrArg _
    (congrArg _
      (search_below htree (stands_searchPath haccepted.no_nul hread) hopen
    hfits depth))

theorem listing_astray (hread : goesAstray location = true)
    (hdirectory : store.isDirectory location = true) :
    store.listing (Glob.patternIn location "**/*") = .ok [] := by
  obtain ⟨haccepted, -⟩ := isDirectory_iff.1 hdirectory
  obtain ⟨depth, -, hlisting⟩ :=
    listing_patternIn_below store haccepted.ne_empty
  rw [hlisting]
  congr 1
  rw [Path.sort, List.eq_nil_iff_forall_not_mem]
  intro path hpath
  rw [List.mem_mergeSort] at hpath
  obtain ⟨hisRead, -⟩ :=
    of_mem_search_exactParts (stands_searchStart location.isAbsolute)
      (fun piece hpiece =>
        Path.no_slash_of_mem_pieces (mem_pieces_of_mem_patternPieces hpiece))
    (fun piece hpiece hmem => haccepted.no_nul
      (Path.mem_of_mem_pieces (mem_pieces_of_mem_patternPieces hpiece) hmem))
      hpath
  rw [(isRead_patternPieces_iff haccepted.no_nul).1 hisRead] at hread
  cases hread

end JobChain.Store
