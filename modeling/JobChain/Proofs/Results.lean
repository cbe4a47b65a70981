import JobChain.Proofs.Store.Below
import JobChain.Proofs.Store.Changes
import JobChain.Publication

/-!
# The listing of results

What a chain has left is listed by a search below its output, and each file
found is named from there. The search drops the dots at the front of a relative
path, so the files below an output that begins with a dot are not recognised as
lying below it. Otherwise the listing holds the name of each file below the
output once and in order.
-/

namespace JobChain

/-! ## Components on the way down -/

namespace Path

variable {base : Path} {piece : String}

private theorem component?_name {name : String} (h : IsName name) :
    component? name = some (.normal name) := by
  simp [component?, h.ne_empty, h.ne_current, h.ne_parent]

private theorem not_current_of_component? (piece : String) :
    component? piece ≠ some .current := by
  unfold component?
  split_ifs <;> simp

private theorem exists_pieces (path : Path) :
    ∃ first rest, path.pieces = first :: rest :=
  List.exists_cons_of_ne_nil (by simp [pieces, Text.splitAt_ne_nil])

private theorem head?_append_component {components : List Component}
    (hdot : components.head? ≠ some .current) (piece : String) :
    (components ++ (component? piece).toList).head? ≠ some .current := by
  have hcomponent := not_current_of_component? piece
  cases components with
  | nil => cases hread : component? piece <;> simp_all
  | cons first rest => simpa using hdot

private theorem components_of_piece (hslash : '/' ∉ piece.toList)
    (hdot : piece ≠ ".") :
    Path.components ⟨piece⟩ = (component? piece).toList := by
  rw [components, isAbsolute_of_no_slash hslash, pieces_of_no_slash hslash]
  cases hpiece : component? piece <;> simp [hpiece, hdot]

private theorem components_child_piece (hne : base.text ≠ "")
    (hslash : '/' ∉ piece.toList) :
    (base.child piece).components = base.components ++
    (component? piece).toList := by
  obtain ⟨text, hfront, htext⟩ := exists_front hne
  have hchild : (base.child piece).pieces = Path.pieces ⟨text⟩ ++ [piece] := by
    have hpath : base.child piece = ⟨text ++ "/" ++ piece⟩ := by
      rw [Path.mk.injEq, text_child base hslash, hfront]
    rw [hpath, pieces_slash, pieces_of_no_slash hslash]
  have hbase : base.pieces = Path.pieces ⟨text⟩ ∨
      base.pieces = Path.pieces ⟨text⟩ ++ [""] := by
    rcases htext with htext | htext
    · exact .inl (congrArg (fun text => Path.pieces ⟨text⟩) htext)
    · exact .inr ((congrArg (fun text => Path.pieces ⟨text⟩) htext).trans
        (pieces_slash_end text))
  obtain ⟨first, rest, hpieces⟩ := exists_pieces ⟨text⟩
  have hempty : component? "" = none := by decide
  rw [components, components, isAbsolute_child base hslash, hchild]
  rcases hbase with hbase | hbase <;> rw [hbase, hpieces] <;>
    cases hpiece : component? piece <;> cases hfirst : component? first <;>
      simp [hpiece, hfirst, hempty, List.filterMap_append]

private theorem head?_pieces_ne_empty (hne : base.text ≠ "")
    (hrelative : base.isAbsolute = false) : base.pieces.head? ≠ some "" := by
  obtain ⟨c, rest, hchars⟩ :=
    List.exists_cons_of_ne_nil (by simpa using hne : base.text.toList ≠ [])
  have hc : c ≠ '/' := by simpa [isAbsolute, hchars] using hrelative
  obtain ⟨first, others, hsplit⟩ := List.exists_cons_of_ne_nil
    (Text.splitAt_ne_nil (fun c => decide (c = '/')) rest)
  simp [pieces, hchars, Text.splitAt, hc, hsplit]

private theorem dropComponents_append (front back : List Component) :
    dropComponents front (front ++ back) = some back := by
  induction front with
  | nil => rfl
  | cons component rest ih => simpa [dropComponents] using ih

private theorem ofComponents_names (names : List String) :
    ofComponents (names.map .normal) = ⟨String.intercalate "/" names⟩ := by
  rw [ofComponents_eq, List.map_map]
  · exact congrArg (fun texts => (⟨String.intercalate "/" texts⟩ : Path))
      (List.map_id names)
  · cases names <;> simp

end Path

/-! ## Components on the way of a search -/

namespace Store

open Path (component?)

variable {base location : Path} {way : List String}

private theorem components_stepTo {piece : String} (hne : base.text ≠ "")
    (hdot : base.components.head? ≠ some .current)
    (hslash : '/' ∉ piece.toList) :
    (stepTo base piece).components = base.components ++
    (component? piece).toList := by
  rw [stepTo, if_neg fun h => hdot (by rw [h]; rfl),
    Path.components_child_piece hne hslash]

private theorem components_foldl_stepTo {pieces : List String}
    (hne : base.text ≠ "") (hdot : base.components.head? ≠ some .current)
    (hslash : ∀ piece ∈ pieces, '/' ∉ piece.toList) :
    (pieces.foldl stepTo base).components = base.components ++
    pieces.filterMap component? := by
  induction pieces generalizing base with
  | nil => simp
  | cons piece rest ih =>
      obtain ⟨hpiece, hrest⟩ := List.forall_mem_cons.1 hslash
      have hstep := components_stepTo hne hdot hpiece
      have hnext : (stepTo base piece).components.head? ≠ some .current := by
        rw [hstep]
        exact Path.head?_append_component hdot piece
      have htext : (stepTo base piece).text ≠ "" := by
        rw [stepTo, if_neg fun h => hdot (by rw [h]; rfl),
          Path.text_child base hpiece]
        simp [Path.front_ne_empty hne]
      rw [List.foldl_cons, ih htext hnext hrest, hstep, List.append_assoc]
      cases hread : component? piece <;> simp [hread]

private theorem components_searchPath (hne : location.text ≠ "")
    (hdot : location.components.head? ≠ some .current) :
    (searchPath location).components = location.components := by
  have hslash : ∀ piece ∈ Glob.patternPieces location, '/' ∉ piece.toList :=
    fun piece hpiece =>
      Path.no_slash_of_mem_pieces (mem_pieces_of_mem_patternPieces hpiece)
  unfold searchPath
  cases habsolute : location.isAbsolute with
  | true =>
      obtain ⟨rest, hpieces⟩ :=
        List.head?_eq_some_iff.1 (Path.head?_pieces_of_isAbsolute habsolute)
      have hempty : component? "" = none := by decide
      have hroot : Path.components ⟨"/"⟩ = [.root] := by decide
      rw [searchStart, if_pos rfl,
        components_foldl_stepTo (by decide) (by decide) hslash, hroot,
        Path.components, habsolute, Glob.patternPieces, habsolute, hpieces]
      simp [hempty]
  | false =>
      obtain ⟨first, rest, hpieces⟩ := location.exists_pieces
      have hfirst : first ≠ "" := by
        simpa [hpieces] using Path.head?_pieces_ne_empty hne habsolute
      have hcurrent : first ≠ "." := by
        rintro rfl
        simp [Path.components, habsolute, hpieces] at hdot
      have hpattern : Glob.patternPieces location = first :: rest := by
        rw [Glob.patternPieces, habsolute, if_neg (by simp), hpieces]
      rw [hpattern] at hslash ⊢
      obtain ⟨hfirstSlash, hrest⟩ := List.forall_mem_cons.1 hslash
      have hstart : stepTo ⟨"."⟩ first = ⟨first⟩ := by
        rw [stepTo, if_pos (by decide)]
      have hcomponents := Path.components_of_piece hfirstSlash hcurrent
      have hhead : (Path.components ⟨first⟩).head? ≠ some .current := by
        rw [hcomponents]
        exact @Path.head?_append_component [] (by simp) first
      rw [searchStart, if_neg (by simp), List.foldl_cons, hstart,
        components_foldl_stepTo hfirst hhead hrest, hcomponents,
        Path.components, habsolute, hpieces]
      cases hread : component? first <;> simp [hread, hcurrent]

private theorem current_or_head?_foldl {absolute : Bool}
    {steps pieces : List String} (h : Stands base absolute steps)
    (hread : Stands.IsRead base pieces)
    (hbase : base = ⟨"."⟩ ∨ base.components.head? ≠ some .current) :
    pieces.foldl stepTo base = ⟨"."⟩ ∨
      (pieces.foldl stepTo base).components.head? ≠ some .current := by
  induction pieces generalizing base steps with
  | nil => exact hbase
  | cons piece rest ih =>
      have hslash := hread.no_slash piece List.mem_cons_self
      have hhead := Stands.isRead_head hread
      refine ih (h.stepTo hslash (hread.no_nul piece List.mem_cons_self) hhead)
        (Stands.isRead_tail h hread) ?_
      rcases hbase with rfl | hdot
      · have hstart : stepTo ⟨"."⟩ piece = ⟨piece⟩ := by
          rw [stepTo, if_pos (by decide)]
        rw [hstart]
        by_cases hcurrent : piece = "."
        · exact .inl (by rw [hcurrent])
        · refine .inr ?_
          rw [Path.components_of_piece hslash hcurrent]
          exact @Path.head?_append_component [] (by simp) piece
      · refine .inr ?_
        rw [components_stepTo h.ne_empty hdot hslash]
        exact Path.head?_append_component hdot piece

private theorem head?_components_foldl_names {absolute : Bool}
    {steps : List String} (h : Stands base absolute steps)
    (hbase : base = ⟨"."⟩ ∨ base.components.head? ≠ some .current)
    (hne : way ≠ []) (hnames : ∀ name ∈ way, IsName name) :
    (way.foldl stepTo base).components.head? ≠ some .current := by
  rcases current_or_head?_foldl h (Stands.isRead_names hnames) hbase
    with hcurrent | hdot
  · have hsteps := (h.foldl_stepTo_names hnames).steps_eq
    rw [hcurrent,
      show Path.steps ⟨"."⟩ = [] by decide, eq_comm, List.append_eq_nil_iff]
        at hsteps
    exact absurd hsteps.2 hne
  · exact hdot

private theorem filterMap_component?_names
    (hnames : ∀ name ∈ way, IsName name) :
    way.filterMap component? = way.map .normal := by
  rw [← List.filterMap_eq_map]
  exact List.filterMap_congr fun name hname =>
    Path.component?_name (hnames name hname)

private theorem below?_foldl_names (hne : location.text ≠ "")
    (hdot : location.components.head? ≠ some .current)
    (hsearch : (searchPath location).text ≠ "")
    (hnames : ∀ name ∈ way, IsName name) :
    location.below? (way.foldl stepTo (searchPath location)) =
      some ⟨String.intercalate "/" way⟩ := by
  have hsame := components_searchPath hne hdot
  rw [Path.below?, components_foldl_stepTo hsearch (by rwa [hsame])
    fun name hname => (hnames name hname).no_slash, hsame,
    Path.dropComponents_append, filterMap_component?_names hnames,
    Option.map_some, Path.ofComponents_names]

private theorem below?_of_dot {path : Path}
    (hdot : location.components.head? = some .current)
    (hpath : path.components.head? ≠ some .current) :
    location.below? path = none := by
  obtain ⟨rest, hrest⟩ := List.head?_eq_some_iff.1 hdot
  rw [Path.below?, hrest]
  cases hcomponents : path.components with
  | nil => rfl
  | cons first others =>
      have hfirst : Path.Component.current ≠ first :=
        fun heq => hpath (by rw [hcomponents, ← heq]; rfl)
      simp [Path.dropComponents, hfirst]

end Store

/-! ## The listing -/

namespace ChainResults

open Store

variable {store : Store} {output : Path}

private theorem head?_components_of_astray (hne : output.text ≠ "")
    (hread : goesAstray output = true) :
    output.components.head? = some .current := by
  rw [goesAstray, Bool.and_eq_true, Bool.not_eq_true', beq_iff_eq] at hread
  obtain ⟨hrelative, hhead⟩ := hread
  have hfirst := Path.head?_pieces_ne_empty hne hrelative
  obtain ⟨first, rest, hpieces⟩ := output.exists_pieces
  rw [hpieces] at hhead hfirst
  by_cases hdot : first = "."
  · simp [Path.components, hrelative, hpieces, hdot]
  · rw [List.dropWhile_cons_of_neg (by simpa using hdot)] at hhead
    exact absurd hhead hfirst

/-- The paths found below a directory that does not begin with a dot are those
of the ways to files. -/
theorem named_files (htree : IsTree store) (hread : goesAstray output = false)
    (hdirectory : store.isDirectory output = true)
    (hfits : Fits store (searchPath output) (placeOf store.here output))
    (hdot : output.components.head? ≠ some .current) (depth : Nat) :
    (((store.waysBelow depth (placeOf store.here output)).map fun way =>
      way.foldl stepTo (searchPath output)).filter store.isFile).filterMap
        (fun path => (output.below? path).map Path.text) =
      ((store.waysBelow depth (placeOf store.here output)).filter
        (store.isFileBelow (placeOf store.here output))).map
        (String.intercalate "/") := by
  obtain ⟨haccepted, hopen⟩ := isDirectory_iff.1 hdirectory
  have hstands := stands_searchPath haccepted.no_nul hread
  have hfile : ∀ way ∈ store.waysBelow depth (placeOf store.here output),
      (store.isFile ∘ fun way => way.foldl stepTo (searchPath output)) way =
        store.isFileBelow (placeOf store.here output) way := by
    intro way hway
    obtain ⟨hne, -, hnode⟩ := (mem_waysBelow htree).1 hway
    exact isFile_foldl_stepTo htree hstands hopen hfits hne hnode
  rw [List.filter_map, List.filter_congr hfile, List.filterMap_map,
    ← List.filterMap_eq_map]
  refine List.filterMap_congr fun way hway => ?_
  obtain ⟨-, -, hnode⟩ := (mem_waysBelow htree).1 (List.mem_filter.1 hway).1
  simp only [Function.comp_apply]
  rw [below?_foldl_names haccepted.ne_empty hdot hstands.ne_empty
    (isName_of_way htree hnode)]
  rfl

private theorem no_named_files (htree : IsTree store)
    (hread : goesAstray output = false)
    (hdirectory : store.isDirectory output = true)
    (hdot : output.components.head? = some .current) (depth : Nat) :
    (((store.waysBelow depth (placeOf store.here output)).map fun way =>
      way.foldl stepTo (searchPath output)).filter store.isFile).filterMap
        (fun path => (output.below? path).map Path.text) = [] := by
  obtain ⟨haccepted, hopen⟩ := isDirectory_iff.1 hdirectory
  refine List.filterMap_eq_nil_iff.2 fun path hpath => ?_
  obtain ⟨way, hway, rfl⟩ := List.mem_map.1 (List.mem_filter.1 hpath).1
  obtain ⟨hne, -, hnode⟩ := (mem_waysBelow htree).1 hway
  have hstart : searchStart output.isAbsolute = ⟨"."⟩ ∨
      (searchStart output.isAbsolute).components.head? ≠ some .current := by
    cases output.isAbsolute with
    | true => exact .inr (by decide)
    | false => exact .inl rfl
  have hsearch := current_or_head?_foldl (stands_searchStart output.isAbsolute)
    ((isRead_patternPieces_iff haccepted.no_nul).2 hread) hstart
  rw [below?_of_dot hdot
    (head?_components_foldl_names (stands_searchPath haccepted.no_nul hread)
      hsearch hne (isName_of_way htree hnode)), Option.map_none]

private theorem exists_ways (htree : IsTree store)
    (hdirectory : store.isDirectory output = true)
    (hfits : Fits store (searchPath output) (placeOf store.here output)) :
    ∃ (paths : List Path) (ways : List (List String)),
      store.listing (Glob.patternIn output "**/*") = .ok paths ∧
      ((paths.filter store.isFile).filterMap fun path =>
        (output.below? path).map Path.text).Perm
          (ways.map (String.intercalate "/")) ∧
      ways.Nodup ∧
      ∀ way, way ∈ ways ↔ output.components.head? ≠ some .current ∧
        ∃ content, store.node? (placeOf store.here output ++ way) =
          some (.file content) := by
  obtain ⟨haccepted, hopen⟩ := isDirectory_iff.1 hdirectory
  have hplace : store.node? (placeOf store.here output) = some .directory :=
    hopen.directories _ (placeFrom_mem_walkFrom _ _)
  cases hread : goesAstray output with
  | true =>
      have hdot := head?_components_of_astray haccepted.ne_empty hread
      exact ⟨[], [], listing_astray hread hdirectory, .refl _,
        .nil, by simp [hdot]⟩
  | false =>
      obtain ⟨depth, hdepth, hlisting⟩ :=
        listing_below htree hread hdirectory hfits
      have hsorted :=
        ((List.mergeSort_perm
          ((store.waysBelow depth (placeOf store.here output)).map
        fun way => way.foldl stepTo (searchPath output)) fun x y =>
          (x.order y).isLE).filter store.isFile).filterMap fun path =>
            (output.below? path).map Path.text
      by_cases hdot : output.components.head? = some .current
      · rw [no_named_files htree hread hdirectory hdot depth] at hsorted
        exact ⟨_, [], hlisting, hsorted, .nil, by simp [hdot]⟩
      · rw [named_files htree hread hdirectory hfits hdot depth] at hsorted
        refine ⟨_, _, hlisting, hsorted, (nodup_waysBelow ..).filter _,
          fun way => ?_⟩
        rw [List.mem_filter, mem_waysBelow htree, isFileBelow_iff]
        constructor
        · rintro ⟨-, hfile⟩
          exact ⟨hdot, hfile⟩
        · rintro ⟨-, content, hcontent⟩
          have hnode : store.node? (placeOf store.here output ++ way) ≠
              none := by simp [hcontent]
          refine ⟨⟨?_, ?_, hnode⟩, content, hcontent⟩
          · rintro rfl
            rw [List.append_nil, hplace] at hcontent
            cases hcontent
          · have hlength := length_le_size htree hnode
            rw [List.length_append] at hlength
            omega

private theorem eq_of_intercalate_eq {way other : List String} (hne : way ≠ [])
    (hne' : other ≠ []) (hnames : ∀ name ∈ way, IsName name)
    (hnames' : ∀ name ∈ other, IsName name)
    (heq : String.intercalate "/" way = String.intercalate "/" other) :
    way = other := by
  rw [← Path.pieces_intercalate hne fun name h => (hnames name h).no_slash,
    ← Path.pieces_intercalate hne' fun name h => (hnames' name h).no_slash, heq]

private theorem sorted_of_nodup {names : List String} (h : names.Nodup) :
    (names.mergeSort fun x y => (compare x y).isLE).Pairwise fun x y =>
      compare x y = .lt := by
  have hnodup :=
    (List.mergeSort_perm names fun x y => (compare x y).isLE).nodup_iff.2 h
  have htotal (x y : String) : ((compare x y).isLE || (compare y x).isLE) =
      true := by
    have hswap : compare y x = (compare x y).swap := Std.OrientedCmp.eq_swap
    rw [hswap]
    cases compare x y <;> rfl
  have hsorted : (names.mergeSort fun x y => (compare x y).isLE).Pairwise
      fun x y => (compare x y).isLE = true :=
    List.pairwise_mergeSort (fun _ _ _ => Std.TransCmp.isLE_trans) htotal _
  refine (hsorted.and hnodup).imp fun {x y} ⟨hle, hne⟩ => ?_
  cases hcompare : compare x y with
  | lt => rfl
  | eq => exact absurd (Std.LawfulEqCmp.eq_of_compare hcompare) hne
  | gt => simp [hcompare] at hle

/-- Of a tree in which no path of the search is too long, the listing holds just
the names of all files below the output, at any depth, in increasing order and
so each once; it is empty where there is no directory. Only below an output that
begins with a dot no file is recognised. -/
theorem collect_lists_files (htree : IsTree store) (chain : String)
    (output : Path) (hfits : store.isDirectory output = true →
      Fits store (searchPath output) (placeOf store.here output)) :
    ∃ files, collect chain output store = .ok { chain, output, files } ∧
      files.Pairwise (fun file file' => compare file file' = .lt) ∧
      ∀ file, file ∈ files ↔
        store.isDirectory output = true ∧
        output.components.head? ≠ some .current ∧
          ∃ way content, store.node? (placeOf store.here output ++ way) =
            some (.file content) ∧ file = String.intercalate "/" way := by
  by_cases hdirectory : store.isDirectory output = true
  · obtain ⟨paths, ways, hlisting, hperm, hnodup, hways⟩ :=
      exists_ways htree hdirectory (hfits hdirectory)
    obtain ⟨-, hopen⟩ := isDirectory_iff.1 hdirectory
    have hplace : store.node? (placeOf store.here output) = some .directory :=
      hopen.directories _ (placeFrom_mem_walkFrom _ _)
    have hne : ∀ way ∈ ways, way ≠ [] := by
      rintro _ hway rfl
      obtain ⟨-, content, hcontent⟩ := (hways []).1 hway
      rw [List.append_nil, hplace] at hcontent
      cases hcontent
    have hnames : ∀ way ∈ ways, ∀ name ∈ way, IsName name := by
      intro way hway
      obtain ⟨-, content, hcontent⟩ := (hways way).1 hway
      have hnode : store.node? (placeOf store.here output ++ way) ≠ none := by
        simp [hcontent]
      exact isName_of_way htree hnode
    have hnodupNames : (ways.map (String.intercalate "/")).Nodup :=
      hnodup.map_on fun way hway other hother =>
        eq_of_intercalate_eq (hne way hway) (hne other hother) (hnames way hway)
          (hnames other hother)
    refine ⟨_, ?_, sorted_of_nodup (hperm.nodup_iff.2 hnodupNames),
      fun file => ?_⟩
    · rw [collect, if_pos hdirectory, hlisting]
      rfl
    · rw [List.mem_mergeSort, hperm.mem_iff, List.mem_map]
      constructor
      · rintro ⟨way, hway, rfl⟩
        obtain ⟨hdot, content, hcontent⟩ := (hways way).1 hway
        exact ⟨hdirectory, hdot, way, content, hcontent, rfl⟩
      · rintro ⟨-, hdot, way, content, hcontent, rfl⟩
        exact ⟨way, (hways way).2 ⟨hdot, content, hcontent⟩, rfl⟩
  · refine ⟨[], ?_, .nil, fun file => by simp [hdirectory]⟩
    rw [collect, if_neg hdirectory]

/-- An output with brackets in its name, and in it a directory with a file, an
empty one and a file whose name begins with a dot. -/
def sampleResults : Store :=
  ((((({} : Store).put ["o[u]t"] .directory).put ["o[u]t",
    "job-0"] .directory).put ["o[u]t", "job-0",
    "part-m-00000"] (.file (.text "{}\n"))).put ["o[u]t",
    "job-1"] .directory).put ["o[u]t", ".crc"] (.file (.text ""))

private theorem isTree_sampleResults : IsTree sampleResults := by
  have houtput := @isTree_put _ [] "o[u]t" .directory isTree_empty rfl
    (by decide) (by decide)
  have hfirst := @isTree_put _ ["o[u]t"] "job-0" .directory houtput (by decide)
    (by decide) (by decide)
  have hpart := @isTree_put _ ["o[u]t",
    "job-0"] "part-m-00000" (.file (.text "{}\n")) hfirst (by decide)
      (by decide) (by decide)
  have hsecond := @isTree_put _ ["o[u]t"] "job-1" .directory hpart (by decide)
    (by decide) (by decide)
  exact @isTree_put _ ["o[u]t"] ".crc" (.file (.text "")) hsecond (by decide)
    (by decide) (by decide)

theorem collect_lists_files_brackets :
    (∃ files, collect "c" ⟨"o[u]t/.//"⟩ sampleResults = .ok ⟨"c", ⟨"o[u]t/.//"⟩,
      files⟩ ∧ "job-0/part-m-00000" ∈ files ∧ ".crc" ∈ files) ∧
    collect "c" ⟨"./o[u]t"⟩ sampleResults = .ok ⟨"c", ⟨"./o[u]t"⟩, []⟩ := by
  have hfits : Fits sampleResults (searchPath ⟨"o[u]t/.//"⟩) ["o[u]t"] :=
    fits_of_nodes (by decide) (by decide)
  have hfits' : Fits sampleResults (searchPath ⟨"./o[u]t"⟩) ["o[u]t"] :=
    fits_of_nodes (by decide) (by decide)
  obtain ⟨files, hcollect, -, hfiles⟩ :=
    collect_lists_files isTree_sampleResults "c" ⟨"o[u]t/.//"⟩ fun _ => hfits
  obtain ⟨dropped, hcollect', -, hdropped⟩ :=
    collect_lists_files isTree_sampleResults "c" ⟨"./o[u]t"⟩ fun _ => hfits'
  refine ⟨⟨files, hcollect, ?_, ?_⟩, ?_⟩
  · exact (hfiles _).2
      ⟨by
        decide, by
          decide, ["job-0", "part-m-00000"], .text "{}\n", by decide, by decide⟩
  · exact (hfiles _).2
      ⟨by decide, by decide, [".crc"], .text "", by decide, by decide⟩
  · have hnone : dropped = [] :=
      List.eq_nil_iff_forall_not_mem.2 fun file hfile =>
      ((hdropped file).1 hfile).2.1 (by decide)
    rw [hcollect', hnone]

end ChainResults

end JobChain
