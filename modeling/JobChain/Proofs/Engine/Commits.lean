import JobChain.Proofs.Engine.Jobs
import JobChain.Proofs.Store.Found
import JobChain.Publication

/-!
# What a job leaves to the next

The next job lists the directory of the one before. It takes the files of the
main output and of the graph from there, and no other ones, and it reads all
their records as long as they return.
-/

namespace JobChain

open Store (IsAccepted IsOpen goesAstray placeOf searchPath startOf)

/-! ## Names in a directory that is searched -/

namespace Store

variable {store : Store} {location : Path} {name : String} {content : Content}

/-- A path that can be searched, to a directory in which a name can be looked
up. -/
structure Leads (store : Store) (location : Path) : Prop where
  no_nul : '\x00' ∉ location.text.toList
  on_way : goesAstray location = false
  isOpen : IsOpen store (startOf store.here location) location.steps

private theorem find_child
    (hopen : IsOpen store (startOf store.here location) location.steps)
    (hname : IsName name) (haccepted : IsAccepted (location.child name)) :
    store.find (location.child name) =
      match store.node? (placeOf store.here location ++ [name]) with
      | none => .error .notFound
      | some node => .ok (placeOf store.here location ++ [name], node) := by
  obtain ⟨before, hbefore, hpieces⟩ := location.pieces_child
  have hplace : placeOf store.here (location.child name) =
      placeOf store.here location ++ [name] :=
    placeOf_child _ hname.no_slash (Path.isStep_name hname) hname.ne_parent
      store.here
  rw [← hbefore, startOf, ← Path.isAbsolute_child location hname.no_slash]
    at hopen
  have hfound :=
    find_of_name hname (hpieces name hname.no_slash) haccepted hopen
  rw [hplace] at hfound
  cases hnode : store.node? (placeOf store.here location ++ [name]) <;>
    simp only [hfound, hnode]

private theorem isFile_iff_of_find {path : Path} {place : Place}
    (hfind : IsAccepted path → store.find path =
      match store.node? place with
      | none => .error .notFound
      | some node => .ok (place, node)) :
    store.isFile path = true ↔ IsAccepted path ∧ ∃ content,
    store.fileAt? place = some content := by
  have hisFile : store.isFile path = true ↔
      ∃ place content, store.find path = .ok (place, .file content) := by
    unfold isFile
    split <;> simp_all
  rw [hisFile]
  constructor
  · rintro ⟨place, content, hfound⟩
    have haccepted := (find_eq_ok_iff.1 hfound).1
    rw [hfind haccepted] at hfound
    refine ⟨haccepted, content, fileAt?_eq_some.2 ?_⟩
    split at hfound
    · cases hfound
    · rename_i hnode
      rw [hnode, (Prod.mk.inj (Except.ok.inj hfound)).2]
  · rintro ⟨haccepted, content, hfile⟩
    exact ⟨_, content, by rw [hfind haccepted, fileAt?_eq_some.1 hfile]⟩

theorem isFile_child_iff
    (hopen : IsOpen store (startOf store.here location) location.steps)
    (hname : IsName name) : store.isFile (location.child name) = true ↔
      IsAccepted (location.child name) ∧
        ∃ content, store.fileAt? (placeOf store.here location ++ [name]) =
          some content :=
  isFile_iff_of_find (find_child hopen hname)

private theorem Leads.isOpen_searchPath (h : store.Leads location) :
    IsOpen store (startOf store.here (searchPath location))
      (searchPath location).steps := by
  have hstands := stands_searchPath h.no_nul h.on_way
  rw [hstands.steps_eq, startOf, hstands.isAbsolute_eq]
  exact h.isOpen

private theorem find_searchPath (h : store.Leads location) (hname : IsName name)
    (haccepted : IsAccepted ((searchPath location).child name)) :
    store.find ((searchPath location).child name) =
      match store.node? (placeOf store.here location ++ [name]) with
      | none => .error .notFound
      | some node => .ok (placeOf store.here location ++ [name], node) := by
  rw [← placeOf_searchPath h.no_nul h.on_way]
  exact find_child h.isOpen_searchPath hname haccepted

private theorem isFile_searchPath_iff (h : store.Leads location)
    (hname : IsName name) :
    store.isFile ((searchPath location).child name) = true ↔
      IsAccepted ((searchPath location).child name) ∧
        ∃ content, store.fileAt? (placeOf store.here location ++ [name]) =
          some content :=
  isFile_iff_of_find (find_searchPath h hname)

private theorem read_searchPath (h : store.Leads location) (hname : IsName name)
    (haccepted : IsAccepted ((searchPath location).child name))
    (hfile : store.fileAt? (placeOf store.here location ++ [name]) =
      some content) :
    store.read ((searchPath location).child name) = .ok content := by
  rw [read, find_searchPath h hname haccepted, fileAt?_eq_some.1 hfile]
  rfl

private theorem isAccepted_searchPath (h : store.Leads location)
    (hslash : location.text.toList.getLast? ≠ some '/') (hname : IsName name)
    (haccepted : IsAccepted (location.child name)) :
    IsAccepted ((searchPath location).child name) := by
  have hstands := stands_searchPath h.no_nul h.on_way
  have hsize := size_searchPath_le h.no_nul h.on_way
  have hone : ("/" : String).utf8ByteSize = 1 := by decide
  have hne : location.text ≠ "" := by
    intro hempty
    have hway := h.on_way
    simp [goesAstray, Path.isAbsolute, Path.pieces, hempty,
      Text.splitAt] at hway
  have hshort := haccepted.short
  rw [Path.text_child _ hname.no_slash, String.utf8ByteSize_append, Path.front,
    if_neg hne, if_neg hslash, String.utf8ByteSize_append] at hshort
  refine ⟨?_, ?_, ?_⟩
  · rw [Path.text_child _ hname.no_slash, String.toList_append]
    intro hmem
    rcases List.mem_append.1 hmem with hmem | hmem
    · exact hstands.no_nul (Path.mem_of_mem_front hmem (by decide))
    · exact hname.no_nul hmem
  · rw [Path.text_child _ hname.no_slash]
    simp [hname.ne_empty]
  · rw [Path.text_child _ hname.no_slash, String.utf8ByteSize_append,
      Path.front, if_neg hstands.ne_empty]
    split_ifs
    · omega
    · rw [String.utf8ByteSize_append]
      omega

end Store

/-! ## Input files -/

def isGraphName (name : String) : Bool :=
  !(beginsWith sideOutput name || beginsWith "_" name || beginsWith "." name)

private theorem isGraphInput_child (base : Path) {name : String}
    (hname : IsName name) :
    isGraphInput (base.child name) = isGraphName name := by
  obtain ⟨outer, houter⟩ := base.components_child
  have hfile : (base.child name).fileName? = some name := by
    simp [Path.fileName?, houter name hname]
  rw [isGraphInput, hfile]
  rfl

private theorem child_injective (base : Path) {name name' : String}
    (hname : IsName name) (hname' : IsName name')
    (h : base.child name = base.child name') : name = name' := by
  have htext := congrArg Path.text h
  rw [Path.text_child _ hname.no_slash, Path.text_child _ hname'.no_slash]
    at htext
  exact (String.append_right_inj _).1 htext

private theorem InputSpec.files_of_leads {input : InputSpec} {store : Store}
    (htree : store.IsTree) (haccepted : IsAccepted input.location)
    (hsteps : input.location.steps ≠ []) (h : store.Leads input.location) :
    ∃ paths, input.files store = .ok paths ∧ paths.Nodup ∧
      ∀ path, path ∈ paths ↔ ∃ name, IsName name ∧ isGraphName name = true ∧
        path = (searchPath input.location).child name ∧ IsAccepted path ∧
          ∃ content,
            store.fileAt? (placeOf store.here input.location ++ [name]) =
              some content := by
  have hdirectory : store.isDirectory input.location = true :=
    Store.isDirectory_iff.2 ⟨haccepted, h.isOpen⟩
  have hfind := Store.find_of_isDirectory hdirectory
  have hfile : store.isFile input.location = false := by
    simp [Store.isFile, hfind]
  have hhas : store.has input.location = true := by
    simp [Store.has, hfind, Except.isOk, Except.toBool]
  have hsearch : Store.isSearchable input.location = true := by
    simpa [Store.isSearchable, h.on_way] using
      Nat.le_trans (Store.size_searchPath_le h.no_nul h.on_way) haccepted.short
  have hlisting :=
    Store.listing_of_open htree hsteps h.no_nul Store.isFront_empty hsearch
      h.isOpen
  have hall :
      (store.namesIn (placeOf store.here input.location)).filter
        (beginsWith "") =
      store.namesIn (placeOf store.here input.location) :=
    List.filter_eq_self.2 fun _ _ => rfl
  rw [hall, String.empty_append] at hlisting
  have hnames : ∀ name ∈ store.namesIn (placeOf store.here input.location),
      IsName name :=
    fun name hname => htree.isName hname
  refine ⟨((store.namesIn (placeOf store.here input.location)).map
    (searchPath input.location).child).filter fun path => store.isFile path &&
    isGraphInput path, ?_, ?_, fun path => ?_⟩
  · rw [InputSpec.files, hfile, hhas, hlisting]
    rfl
  · refine .filter _ ((store.nodup_namesIn _).map_on
      fun name hname name' hname' heq => ?_)
    exact child_injective _ (hnames name hname) (hnames name' hname') heq
  · rw [List.mem_filter, List.mem_map, Bool.and_eq_true]
    constructor
    · rintro ⟨⟨name, hname, rfl⟩, hisFile, hgraph⟩
      obtain ⟨haccepted, hcontent⟩ :=
        (Store.isFile_searchPath_iff h (hnames name hname)).1 hisFile
      rw [isGraphInput_child _ (hnames name hname)] at hgraph
      exact ⟨name, hnames name hname, hgraph, rfl, haccepted, hcontent⟩
    · rintro ⟨name, hname, hgraph, rfl, haccepted, content, hcontent⟩
      refine ⟨⟨name, ?_, rfl⟩, (Store.isFile_searchPath_iff h hname).2
        ⟨haccepted, content, hcontent⟩,
        by rwa [isGraphInput_child _ hname]⟩
      rw [Store.mem_namesIn, Store.fileAt?_eq_some.1 hcontent]
      rfl

namespace Engine

/-! ## Records of outputs -/

def committedOutputs : List String := [mainOutput, graphOutput]

section

variable (registry : Registry) (job : Job) (inputs : List (List Pair))

def tasksOf : List (Side × Nat) :=
  (List.range (mapAsked registry job inputs).length).map
    (fun task => (Side.map, task)) ++
    (List.range (reduceAsked registry job inputs).length).map fun task =>
      (Side.reduce, task)

def recordsOf (output : String) : List Pair :=
  ((mapAsked registry job inputs).flatMap fun actions =>
    kept (!job.hasReduce) actions output) ++
    (reduceAsked registry job inputs).flatMap fun actions =>
      kept true actions output

def committed : List Pair :=
  committedOutputs.flatMap (recordsOf registry job inputs)

private theorem recordsOf_eq (output : String) :
    recordsOf registry job inputs output = (tasksOf registry job inputs).flatMap
      fun task => tableOf registry job inputs task.1 task.2 output := by
  have hrange : ∀ {α β : Type} (list : List α) (f : α → List β),
      (List.range list.length).flatMap (fun index => list[index]?.elim [] f) =
        list.flatMap f := by
    intro α β list f
    have hmap : (List.range list.length).map (fun index => list[index]?) =
        list.map some := by
      refine List.ext_getElem? fun index => ?_
      by_cases hindex : index < list.length <;> simp [hindex]
    have hflat :=
      congrArg (List.flatMap fun value => Option.elim value [] f) hmap
    simpa only [List.flatMap_map, Option.elim_some] using hflat
  simp only [tasksOf, List.flatMap_append, List.flatMap_map, tableOf, hrange]
  rfl

private theorem nodup_tasksOf : (tasksOf registry job inputs).Nodup := by
  refine List.nodup_append.2 ⟨?_, ?_, ?_⟩
  · exact List.nodup_range.map fun _ _ h => (Prod.mk.inj h).2
  · exact List.nodup_range.map fun _ _ h => (Prod.mk.inj h).2
  · rintro task htask task' htask' rfl
    obtain ⟨_, -, rfl⟩ := List.mem_map.1 htask
    obtain ⟨_, -, h⟩ := List.mem_map.1 htask'
    cases h

variable {registry job inputs}

private theorem mem_tasksOf {side : Side} {task : Nat} {output : String}
    (hleft : tableOf registry job inputs side task output ≠ []) :
    (side, task) ∈ tasksOf registry job inputs := by
  have hlt : ∀ {α β : Type} {list : List α} {f : α → List β} {index : Nat},
      list[index]?.elim [] f ≠ [] → index < list.length := by
    intro α β list f index hne
    by_contra hge
    rw [List.getElem?_eq_none (Nat.not_lt.1 hge)] at hne
    exact hne rfl
  cases side with
  | map =>
      exact List.mem_append_left _
        (List.mem_map.2 ⟨task, List.mem_range.2 (hlt hleft), rfl⟩)
  | reduce =>
      exact List.mem_append_right _
        (List.mem_map.2 ⟨task, List.mem_range.2 (hlt hleft), rfl⟩)

end

/-! ## Jobs of chains -/

/-- A job whose graph has the format of its main output, beside what is learned
on the way. -/
def SharesFormat (job : Job) : Prop :=
  ∃ format, job.output.named = [⟨sideOutput, format⟩,
    ⟨graphOutput, job.output.format⟩]

theorem exists_toList_outputName (output : String) (side : Side) (task : Nat)
    (format : RecordFormat) :
    ∃ rest, (outputName output side task format).toList = output.toList ++
      '-' :: rest := by
  rw [toList_outputName, List.append_assoc, List.append_assoc, List.cons_append]
  exact ⟨_, rfl⟩

namespace SharesFormat

variable {job : Job} (h : SharesFormat job)

include h

theorem staysInside : StaysInside job := by
  obtain ⟨format, hnamed⟩ := h
  refine staysInside_of_named ?_
  rw [hnamed]
  simp [show '/' ∉
    sideOutput.toList by decide, show '/' ∉ graphOutput.toList by decide]

theorem formatFor?_committed {output : String}
    (houtput : output ∈ committedOutputs) :
    formatFor? job output = some job.output.format := by
  obtain ⟨format, hnamed⟩ := h
  unfold formatFor?
  rcases List.mem_pair.1 houtput with rfl | rfl
  · rw [if_pos rfl]
  · rw [if_neg (by decide), OutputSpec.formatOf?, hnamed]
    rfl

theorem mem_of_formatFor? {output : String}
    (hknown : (formatFor? job output).isSome = true) : output = sideOutput ∨
    output ∈ committedOutputs := by
  obtain ⟨format, hnamed⟩ := h
  unfold formatFor? at hknown
  split_ifs at hknown with hmain
  · exact .inr (List.mem_pair.2 (.inl hmain))
  · rw [OutputSpec.formatOf?, hnamed, Option.isSome_map, List.find?_isSome]
      at hknown
    obtain ⟨entry, hentry, hname⟩ := hknown
    obtain rfl : entry.name = output := of_decide_eq_true hname
    rcases List.mem_pair.1 hentry with rfl | rfl
    · exact .inl rfl
    · exact .inr (List.mem_pair.2 (.inr rfl))

private theorem isGraphName_iff {output : String}
    (hknown : (formatFor? job output).isSome = true) (side : Side) (task : Nat)
    (format : RecordFormat) :
    isGraphName (outputName output side task format) = true ↔
    output ∈ committedOutputs := by
  obtain ⟨rest, hrest⟩ := exists_toList_outputName output side task format
  unfold isGraphName beginsWith
  rw [hrest]
  rcases h.mem_of_formatFor? hknown with rfl | houtput
  · exact iff_of_false Bool.false_ne_true (by decide)
  · refine iff_of_true ?_ houtput
    rcases List.mem_pair.1 houtput with rfl | rfl <;> rfl

end SharesFormat

/-- A job whose main output and whose graph another one reads. -/
structure HandsOn (job : Job) : Prop where
  format_eq : job.output.format = .intermediate
  named_eq : ∃ format, job.output.named = [⟨sideOutput, format⟩,
      ⟨graphOutput, .intermediate⟩]

theorem HandsOn.sharesFormat {job : Job}
    (h : HandsOn job) : SharesFormat job := by
  obtain ⟨format, hnamed⟩ := h.named_eq
  exact ⟨format, by rw [hnamed, h.format_eq]⟩

theorem HandsOn.formatFor?_committed {job : Job} (h : HandsOn job)
    {output : String} (houtput : output ∈ committedOutputs) :
    formatFor? job output = some .intermediate := by
  rw [h.sharesFormat.formatFor?_committed houtput, h.format_eq]

/-! ## What the next job reads -/

section

variable {registry : Registry} {job : Job} {inputs : List (List Pair)}

def committedFiles (registry : Registry) (job : Job)
    (inputs : List (List Pair)) : List (String × Side × Nat) :=
  (committedOutputs.flatMap fun output =>
    (tasksOf registry job inputs).map fun task => (output, task)).filter
      fun file => tableOf registry job inputs file.2.1 file.2.2 file.1 ≠ []

theorem mem_committedFiles {output : String} {side : Side} {task : Nat} :
    (output, side, task) ∈ committedFiles registry job inputs ↔
      output ∈ committedOutputs ∧ tableOf registry job inputs side task output ≠
        [] := by
  simp only [committedFiles, List.mem_filter, List.mem_flatMap, List.mem_map,
    decide_eq_true_eq]
  constructor
  · rintro ⟨⟨_, houtput, _, -, heq⟩, hleft⟩
    obtain ⟨rfl, -⟩ := Prod.mk.inj heq
    exact ⟨houtput, hleft⟩
  · rintro ⟨houtput, hleft⟩
    exact ⟨⟨output, houtput, (side, task), mem_tasksOf hleft, rfl⟩, hleft⟩

private theorem nodup_committedFiles :
    (committedFiles registry job inputs).Nodup := by
  refine .filter _ (List.nodup_flatMap.2 ⟨fun output _ => ?_, ?_⟩)
  · exact (nodup_tasksOf registry job inputs).map fun _ _ h => (Prod.mk.inj h).2
  · have hnodup : committedOutputs.Nodup := by decide
    refine hnodup.imp fun hne file hfile hfile' => ?_
    obtain ⟨_, -, rfl⟩ := List.mem_map.1 hfile
    obtain ⟨_, -, h⟩ := List.mem_map.1 hfile'
    exact hne (Prod.mk.inj h).1.symm

private theorem flatMap_committedFiles :
    (committedFiles registry job inputs).flatMap (fun file =>
      tableOf registry job inputs file.2.1 file.2.2 file.1) =
        committed registry job inputs := by
  have hfilter : ∀ files : List (String × Side × Nat),
      (files.filter fun file =>
        tableOf registry job inputs file.2.1 file.2.2 file.1 ≠ []).flatMap
          (fun file => tableOf registry job inputs file.2.1 file.2.2 file.1) =
      files.flatMap fun file =>
        tableOf registry job inputs file.2.1 file.2.2 file.1 := by
    intro files
    induction files with
    | nil => rfl
    | cons file rest ih =>
        by_cases hempty :
            tableOf registry job inputs file.2.1 file.2.2 file.1 = []
        · simpa [hempty] using ih
        · simpa [hempty] using ih
  rw [committedFiles, hfilter, List.flatMap_assoc, committed]
  refine List.flatMap_congr fun output _ => ?_
  rw [List.flatMap_map, recordsOf_eq]

def committedPath (job : Job) (file : String × Side × Nat) : Path :=
  (searchPath job.output.location).child
    (outputName file.1 file.2.1 file.2.2 .intermediate)

/-- The directory of a job that has succeeded, while nothing in it has been
touched. -/
structure Keeps (registry : Registry) (job : Job) (inputs : List (List Pair))
    (later : Store) : Prop where
  isTree : later.IsTree
  isOpen :
      IsOpen later (startOf later.here job.output.location)
        job.output.location.steps
  accepted : IsAccepted job.output.location
  no_slash : job.output.location.text.toList.getLast? ≠ some '/'
  steps_ne : job.output.location.steps ≠ []
  known : ∀ side task output,
    tableOf registry job inputs side task output ≠ [] →
    ∃ format, formatFor? job output = some format ∧
      IsName (outputName output side task format) ∧
      IsAccepted
        (job.output.location.child (outputName output side task format))
  file : ∀ place content,
    (tableOf registry job inputs).Holds job later.here place content →
    later.fileAt? place = some content
  others : ∀ place content, homeOf job later.here <+: place →
    later.fileAt? place = some content →
    (tableOf registry job inputs).Holds job later.here place content ∨
      place = homeOf job later.here ++ [successMark] ∧ content = .text ""

namespace Keeps

variable {later : Store}

theorem files_of_astray (h : Keeps registry job inputs later)
    {input : InputSpec} (hinput : input.location = job.output.location)
    (hastray : goesAstray job.output.location = true) :
    input.files later = .ok [] := by
  have hdirectory : later.isDirectory job.output.location = true :=
    Store.isDirectory_iff.2 ⟨h.accepted, h.isOpen⟩
  have hfind := Store.find_of_isDirectory hdirectory
  have hfile : later.isFile job.output.location = false := by
    simp [Store.isFile, hfind]
  have hhas : later.has job.output.location = true := by
    simp [Store.has, hfind, Except.isOk, Except.toBool]
  have hlisting :
      later.listing (Glob.patternIn job.output.location ("" ++ "*")) = .ok [] :=
    Store.listing_of_closed h.steps_ne h.accepted.no_nul Store.isFront_empty
      fun hsearch => by
      simp [Store.isSearchable, hastray] at hsearch
  rw [String.empty_append] at hlisting
  rw [InputSpec.files, hinput, hfile, hhas, hlisting]
  rfl

variable (hway : goesAstray job.output.location = false)

include hway

private theorem leads
    (h : Keeps registry job inputs later) : later.Leads job.output.location :=
  ⟨h.accepted.no_nul, hway, h.isOpen⟩

theorem of_mem (h : Keeps registry job inputs later) (hhands : HandsOn job)
    {file : String × Side × Nat}
    (hfile : file ∈ committedFiles registry job inputs) :
    IsName (outputName file.1 file.2.1 file.2.2 .intermediate) ∧
      IsAccepted (committedPath job file) ∧
      later.fileAt? (homeOf job later.here ++
        [outputName file.1 file.2.1 file.2.2 .intermediate]) =
        some (.text (RecordFormat.intermediate.write
          (tableOf registry job inputs file.2.1 file.2.2 file.1))) := by
  obtain ⟨output, side, task⟩ := file
  obtain ⟨houtput, hleft⟩ := mem_committedFiles.1 hfile
  obtain ⟨format, hknown, hname, haccepted⟩ := h.known side task output hleft
  obtain rfl : format = .intermediate :=
    Option.some.inj (hknown.symm.trans (hhands.formatFor?_committed houtput))
  exact ⟨hname,
    Store.isAccepted_searchPath (h.leads hway) h.no_slash hname haccepted,
    h.file _ _ (.file side task output _ hleft hknown)⟩

private theorem mem_files_iff (h : Keeps registry job inputs later)
    (hhands : HandsOn job) {path : Path} :
    (∃ name, IsName name ∧ isGraphName name = true ∧
      path = (searchPath job.output.location).child name ∧ IsAccepted path ∧
        ∃ content, later.fileAt? (homeOf job later.here ++ [name]) =
          some content) ↔
      path ∈ (committedFiles registry job inputs).map (committedPath job) := by
  rw [List.mem_map]
  constructor
  · rintro ⟨name, hname, hgraph, rfl, -, content, hcontent⟩
    generalize hplace : homeOf job later.here ++ [name] = place at hcontent
    rcases h.others place content (hplace ▸ List.prefix_append ..) hcontent
      with hholds | ⟨hmark, -⟩
    · obtain ⟨side, task, output, format, hleft, hknown⟩ := hholds
      obtain rfl := List.singleton_inj.1 (List.append_cancel_left hplace)
      have houtput :=
        (hhands.sharesFormat.isGraphName_iff
          (by simp [hknown]) side task format).1 hgraph
      obtain rfl : format = .intermediate :=
        Option.some.inj
          (hknown.symm.trans (hhands.formatFor?_committed houtput))
      exact ⟨(output, side, task), mem_committedFiles.2 ⟨houtput, hleft⟩, rfl⟩
    · obtain rfl :=
        List.singleton_inj.1 (List.append_cancel_left (hplace.trans hmark))
      exact absurd hgraph (by decide)
  · rintro ⟨file, hfile, rfl⟩
    obtain ⟨hname, haccepted, hcontent⟩ := h.of_mem hway hhands hfile
    obtain ⟨output, side, task⟩ := file
    obtain ⟨houtput, -⟩ := mem_committedFiles.1 hfile
    have hknown : (formatFor? job output).isSome = true := by
      rw [hhands.formatFor?_committed houtput]
      rfl
    have hgraph :=
      (hhands.sharesFormat.isGraphName_iff hknown side task .intermediate).2
        houtput
    exact ⟨_, hname, hgraph, rfl, haccepted, _, hcontent⟩

private theorem committedPath_injOn (h : Keeps registry job inputs later)
    (hhands : HandsOn job) {file file' : String × Side × Nat}
    (hfile : file ∈ committedFiles registry job inputs)
    (hfile' : file' ∈ committedFiles registry job inputs)
    (heq : committedPath job file = committedPath job file') :
    file = file' := by
  have hname := child_injective _ (h.of_mem hway hhands hfile).1
    (h.of_mem hway hhands hfile').1 heq
  obtain ⟨output, side, task⟩ := file
  obtain ⟨output', side', task'⟩ := file'
  obtain ⟨houtput, hside, htask⟩ := outputName_inj hname
  simp only at houtput hside htask
  rw [houtput, hside, htask]

/-- The next job reads the files that have been committed, and all their records
as long as they return. -/
theorem reads (h : Keeps registry job inputs later) (hhands : HandsOn job)
    {input : InputSpec}
    (hinput : input =
      { location := job.output.location, format := .intermediate }) :
    ∃ paths, input.files later = .ok paths ∧
      paths.Perm
        ((committedFiles registry job inputs).map (committedPath job)) ∧
      ((∀ pair ∈ committed registry job inputs, pair.Returns) →
        ∃ parts, List.Forall₂ (later.Reads input.format) paths parts ∧
          parts.flatten.Perm (committed registry job inputs)) := by
  subst hinput
  obtain ⟨paths, hfiles, hnodup, hmem⟩ :=
    @InputSpec.files_of_leads ⟨job.output.location,
      .intermediate⟩ later h.isTree h.accepted h.steps_ne (h.leads hway)
  have hperm :
      paths.Perm
        ((committedFiles registry job inputs).map (committedPath job)) := by
    refine (List.perm_ext_iff_of_nodup hnodup ?_).2 fun path =>
      (hmem path).trans (h.mem_files_iff hway hhands)
    exact nodup_committedFiles.map_on fun _ hfile _ hfile' =>
      h.committedPath_injOn hway hhands hfile hfile'
  refine ⟨paths, hfiles, hperm, fun hreturns => ?_⟩
  have hreads : ∀ file ∈ committedFiles registry job inputs,
      later.Reads .intermediate (committedPath job file)
        (tableOf registry job inputs file.2.1 file.2.2 file.1) := by
    intro file hfile
    obtain ⟨hname, haccepted, hcontent⟩ := h.of_mem hway hhands hfile
    refine ⟨_, Store.read_searchPath (h.leads hway) hname haccepted hcontent,
      RecordFormat.read_write_intermediate
        (fun pair hpair => hreturns pair ?_) _⟩
    rw [← flatMap_committedFiles]
    exact List.mem_flatMap.2 ⟨file, hfile, hpair⟩
  refine ⟨paths.map (later.recordsAt .intermediate), ?_, ?_⟩
  · rw [List.forall₂_map_right_iff, List.forall₂_same]
    intro path hpath
    obtain ⟨file, hfile, rfl⟩ := List.mem_map.1 (hperm.mem_iff.1 hpath)
    have hread := hreads file hfile
    rwa [hread.recordsAt_eq]
  · rw [← List.flatMap_def, ← flatMap_committedFiles]
    refine (hperm.flatMap_right _).trans ?_
    rw [List.flatMap_map]
    exact .of_eq (List.flatMap_congr fun file hfile =>
      (hreads file hfile).recordsAt_eq)

theorem isShallow_of_reads (h : Keeps registry job inputs later)
    (hhands : HandsOn job) {paths : List Path} {parts : List (List Pair)}
    (hperm : paths.Perm
      ((committedFiles registry job inputs).map (committedPath job)))
    (hreads : List.Forall₂ (later.Reads .intermediate) paths parts) :
    ∀ pair ∈ committed registry job inputs, pair.isStable = true →
      pair.IsShallow := by
  intro pair hpair
  rw [← flatMap_committedFiles, List.mem_flatMap] at hpair
  obtain ⟨file, hfile, hpair⟩ := hpair
  obtain ⟨hname, haccepted, hcontent⟩ := h.of_mem hway hhands hfile
  rw [← Store.map_recordsAt hreads, List.forall₂_map_right_iff,
    List.forall₂_same] at hreads
  obtain ⟨content, hread, hrecords⟩ :=
    hreads _ (hperm.mem_iff.2 (List.mem_map_of_mem hfile))
  obtain rfl := Except.ok.inj
    (hread.symm.trans
      (Store.read_searchPath (h.leads hway) hname haccepted hcontent))
  exact RecordFormat.isShallow_of_read_intermediate hrecords pair hpair

end Keeps

end

end Engine

end JobChain
