import JobChain.Engine
import JobChain.Proofs.Engine.Tasks
import JobChain.Proofs.Store.Files

/-!
# Outputs of tasks

Each output of each task has a file of its own, since its name can be read back.
So what one output leaves is never written over, but where a task writes to the
main output by its name too.
-/

namespace JobChain.Engine

/-! ## Work on a store -/

section

variable {α : Type} {store after : Store}

theorem succeeds_ofStoreM_iff {work : StoreM α} {answer : α} :
    Succeeds (Effort.ofStoreM work) store answer after ↔
    Succeeds work store answer after := by
  change (((outcome work store).1.mapError IoError.failure,
    (outcome work store).2) :
    Except Failure α × Store) = _ ↔ outcome work store = _
  rcases outcome work store with ⟨_ | _, _⟩ <;> simp [Except.mapError]

theorem succeeds_ofExcept_iff {ε : Type} {failure : ε → Failure}
    {result : Except ε α} {answer : α} :
    Succeeds (Effort.ofExcept failure result) store answer after ↔
      result = .ok answer ∧ store = after := by
  change ((result.mapError failure, store) : Except Failure α × Store) = _ ↔ _
  cases result <;> simp [Except.mapError]

theorem succeeds_within_iff {context : String} {work : Effort α} {answer : α} :
    Succeeds (work.within context) store answer after ↔
    Succeeds work store answer after := by
  change (((outcome work store).1.mapError (Failure.within context),
    (outcome work store).2) :
    Except Failure α × Store) = _ ↔ outcome work store = _
  rcases outcome work store with ⟨_ | _, _⟩ <;> simp [Except.mapError]

theorem succeeds_attempt_iff {work : Effort α} {result : Except Failure α} :
    Succeeds (attempt work) store result after ↔
    outcome work store = (result, after) := by
  change ((.ok (outcome work store).1, (outcome work store).2) :
    Except Failure (Except Failure α) × Store) = _ ↔ _
  rcases outcome work store with ⟨_, _⟩
  simp

end

/-! ## Names of files -/

private theorem append_cons_inj {α : Type} {x : α}
    {front front' back back' : List α} (hback : x ∉ back) (hback' : x ∉ back')
    (h : front ++ x :: back = front' ++ x :: back') : front = front' ∧
    back = back' := by
  rcases List.append_eq_append_iff.1 h with ⟨others, hfront, hrest⟩ | ⟨others,
    hfront, hrest⟩
  · cases others with
    | nil => simp_all
    | cons y others =>
        obtain ⟨-, rfl⟩ := List.cons.inj hrest
        simp at hback
  · cases others with
    | nil => simp_all
    | cons y others =>
        obtain ⟨-, rfl⟩ := List.cons.inj hrest
        simp at hback'

private theorem isDigit_of_mem_paddedText {width n : Nat} {c : Char}
    (h : c ∈ (Text.paddedText width n).toList) : c.isDigit = true := by
  rw [Text.paddedText, String.toList_ofList] at h
  rcases List.mem_append.1 h with h | h
  · rw [List.eq_of_mem_replicate h]
    decide
  · exact Text.isDigit_of_mem_natChars h

private theorem paddedText_injective {width n n' : Nat}
    (h : Text.paddedText width n = Text.paddedText width n') : n = n' := by
  have hvalue : ∀ n, Text.digitsValue (Text.paddedText width n).toList = n := by
    intro n
    rw [Text.paddedText, String.toList_ofList, Text.digitsValue,
      Nat.ofDigitChars_append, Nat.ofDigitChars_replicate_zero, Nat.mul_zero]
    exact Nat.ofDigitChars_ten_toDigits
  rw [← hvalue n, h, hvalue]

theorem toList_outputName (output : String) (side : Side) (task : Nat)
    (format : RecordFormat) : (outputName output side task format).toList =
      (((output.toList ++ '-' :: side.letter.toList) ++ '-' ::
        (Text.paddedText 5 task).toList) ++
        '.' :: format.ending.toList) := by
  simp [outputName]

theorem outputName_inj {output output' : String} {side side' : Side}
    {task task' : Nat} {format format' : RecordFormat}
    (h : outputName output side task format =
      outputName output' side' task' format') :
    output = output' ∧ side = side' ∧ task = task' := by
  have hchars := congrArg String.toList h
  rw [toList_outputName, toList_outputName] at hchars
  have hending : ∀ format : RecordFormat, '.' ∉ format.ending.toList := by
    rintro (_ | _ | _) <;> decide
  have hdigits : ∀ task, '-' ∉ (Text.paddedText 5 task).toList :=
    fun task hmem => absurd (isDigit_of_mem_paddedText hmem) (by decide)
  have hletter : ∀ side : Side, '-' ∉ side.letter.toList := by
    rintro (_ | _) <;> decide
  obtain ⟨hfront, -⟩ :=
    append_cons_inj (hending format) (hending format') hchars
  obtain ⟨hfront, htask⟩ :=
    append_cons_inj (hdigits task) (hdigits task') hfront
  obtain ⟨houtput, hside⟩ :=
    append_cons_inj (hletter side) (hletter side') hfront
  refine ⟨String.toList_inj.1 houtput, ?_,
    paddedText_injective (String.toList_inj.1 htask)⟩
  cases side <;> cases side' <;> first | rfl | simp [Side.letter] at hside

theorem outputName_ne {name : String} (h : '-' ∉ name.toList) (output : String)
    (side : Side) (task : Nat) (format : RecordFormat) :
    outputName output side task format ≠ name := by
  rintro rfl
  exact h (by simp [toList_outputName])

theorem no_slash_outputName {output : String} (h : '/' ∉ output.toList)
    (side : Side) (task : Nat) (format : RecordFormat) :
    '/' ∉ (outputName output side task format).toList := by
  have hdigits : '/' ∉ (Text.paddedText 5 task).toList := fun hmem =>
    absurd (isDigit_of_mem_paddedText hmem) (by decide)
  have hending : '/' ∉ format.ending.toList := by cases format <;> decide
  have hletter : '/' ∉ side.letter.toList := by cases side <;> decide
  simp [toList_outputName, h, hdigits, hending, hletter]

/-! ## Places of files -/

def homeOf (job : Job) (here : Place) : Place :=
  Store.placeOf here job.output.location

def outputPlace (job : Job) (here : Place) (side : Side) (task : Nat)
    (output : String) (format : RecordFormat) : Place :=
  homeOf job here ++ [outputName output side task format]

def shufflePlace (job : Job) (here : Place) : Place :=
  homeOf job here ++ [temporaryDirectory]

/-- Outputs whose names stay in the directory of a job. -/
def StaysInside (job : Job) : Prop :=
  ∀ output, (formatFor? job output).isSome = true → '/' ∉ output.toList

theorem staysInside_of_named {job : Job}
    (h : ∀ entry ∈ job.output.named, '/' ∉ entry.name.toList) :
    StaysInside job := by
  intro output hknown
  unfold formatFor? at hknown
  split_ifs at hknown with hmain
  · rw [hmain]
    decide
  · rw [OutputSpec.formatOf?, Option.isSome_map, List.find?_isSome] at hknown
    obtain ⟨entry, hentry, hname⟩ := hknown
    exact of_decide_eq_true hname ▸ h entry hentry

theorem placeOf_child_outputName {job : Job} {output : String}
    (h : '/' ∉ output.toList) (here : Place) (side : Side) (task : Nat)
    (format : RecordFormat) :
    Store.placeOf here
      (job.output.location.child (outputName output side task format)) =
      outputPlace job here side task output format := by
  have hstep : Path.isStep (outputName output side task format) = true := by
    simp [Path.isStep, outputName_ne]
  exact Store.placeOf_child _ (no_slash_outputName h side task format) hstep
    (outputName_ne (by decide) output side task format) here

private theorem not_below_shufflePlace {job : Job} {here : Place}
    {name : String} (h : name ≠ temporaryDirectory) :
    ¬shufflePlace job here <+: homeOf job here ++ [name] := by
  intro hbelow
  have hsame := (List.prefix_append_right_inj _).1 hbelow
  obtain ⟨rest, hrest⟩ := hsame
  exact h (List.cons.inj hrest).1.symm

/-! ## One output -/

/-- The directories are kept, and so are the files in the directory for the
shuffle. -/
structure SparesShuffle (job : Job) (before after : Store) : Prop
    extends Store.Builds before after where
  kept : ∀ place, shufflePlace job before.here <+: place →
    after.fileAt? place = before.fileAt? place

namespace SparesShuffle

variable {job : Job} {before between after : Store}

theorem refl (job : Job) (store : Store) : SparesShuffle job store store :=
  ⟨.refl store, fun _ _ => rfl⟩

theorem trans (h : SparesShuffle job before between)
    (h' : SparesShuffle job between after) :
    SparesShuffle job before after where
  toBuilds := h.toBuilds.trans h'.toBuilds
  kept place hplace := by
    rw [h'.kept place (h.here_eq ▸ hplace), h.kept place hplace]

end SparesShuffle

section

variable {job : Job} {side : Side} {task : Nat} {output : String}
  {pairs : List Pair} {store after : Store}

private theorem of_writeOutput
    (h : Succeeds (writeOutput job side task output pairs) store () after) :
    pairs = [] ∧ after = store ∨
      pairs ≠ [] ∧ ∃ format, formatFor? job output = some format ∧
        Store.Writes
          (job.output.location.child (outputName output side task format))
          (.text (format.write pairs)) store after := by
  unfold writeOutput at h
  split_ifs at h with hempty
  · obtain ⟨-, rfl⟩ := succeeds_pure_iff.1 h
    exact .inl ⟨List.isEmpty_iff.1 hempty, rfl⟩
  · refine .inr ⟨by simpa using hempty, ?_⟩
    split at h
    · exact absurd h not_succeeds_throw
    · rename_i format hknown
      exact ⟨format, hknown, Store.writes_of_save
        (succeeds_ofStoreM_iff.1 (succeeds_within_iff.1 h))⟩

end

/-! ## Tables of outputs -/

abbrev Table := Side → Nat → String → List Pair

namespace Table

/-- The file of an output that has left some records, and what it holds. -/
inductive Holds (table : Table) (job : Job) (here : Place) : Place → Content →
    Prop where
  | file (side : Side) (task : Nat) (output : String) (format : RecordFormat)
      (left : table side task output ≠ []) (known : formatFor? job output =
        some format) :
      Holds table job here (outputPlace job here side task output format)
        (.text (format.write (table side task output)))

def put (table : Table) (side : Side) (task : Nat) (output : String)
    (pairs : List Pair) : Table :=
  fun side' task' output' =>
    if pairs ≠ [] ∧ side' = side ∧ task' = task ∧ output' = output then pairs
    else table side' task' output'

variable {table : Table} {job : Job} {side : Side} {task : Nat}
  {output : String} {pairs : List Pair} {here place : Place} {content : Content}

private theorem put_nil (table : Table) (side : Side) (task : Nat)
    (output : String) : table.put side task output [] = table := by
  funext side' task' output'
  simp [put]

theorem Holds.not_below (h : table.Holds job here place content) :
    ¬shufflePlace job here <+: place := by
  obtain ⟨side, task, output, format, -, -⟩ := h
  exact not_below_shufflePlace
    (outputName_ne (by decide) output side task format)

@[simp] theorem put_self (hne : pairs ≠ []) :
    table.put side task output pairs side task output = pairs := by
  simp [put, hne]

private theorem put_other {side' : Side} {task' : Nat} {output' : String}
    (h : ¬(side' = side ∧ task' = task ∧ output' = output)) :
    table.put side task output pairs side' task' output' =
      table side' task' output' :=
  if_neg fun hall => h hall.2

private theorem holds_put_iff {format : RecordFormat} (hne : pairs ≠ [])
    (hknown : formatFor? job output = some format) :
    (table.put side task output pairs).Holds job here place content ↔
      if place = outputPlace job here side task output format then
        content = .text (format.write pairs)
      else table.Holds job here place content := by
  constructor
  · rintro ⟨side', task', output', format', hleft, hknown'⟩
    by_cases hsame : side' = side ∧ task' = task ∧ output' = output
    · obtain ⟨rfl, rfl, rfl⟩ := hsame
      obtain rfl : format = format' :=
        Option.some.inj (hknown.symm.trans hknown')
      rw [if_pos rfl, put_self hne]
    · rw [put_other hsame] at hleft ⊢
      rw [if_neg]
      · exact .file side' task' output' format' hleft hknown'
      · intro hplace
        obtain ⟨houtput, hside, htask⟩ :=
          outputName_inj (List.singleton_inj.1 (List.append_cancel_left hplace))
        exact hsame ⟨hside, htask, houtput⟩
  · intro h
    split_ifs at h with hplace
    · subst hplace h
      have hfile :=
        @Holds.file (table.put side task output pairs) job here side task
          output format
        (by rwa [put_self hne]) hknown
      rwa [put_self hne] at hfile
    · obtain ⟨side', task', output', format', hleft, hknown'⟩ := h
      have hother : ¬(side' = side ∧ task' = task ∧ output' = output) := by
        rintro ⟨rfl, rfl, rfl⟩
        obtain rfl : format = format' :=
          Option.some.inj (hknown.symm.trans hknown')
        exact hplace rfl
      have hsame := @put_other table side task output pairs _ _ _ hother
      have hfile :=
        @Holds.file (table.put side task output pairs) job here side'
          task' output'
        format' (by rwa [hsame]) hknown'
      rwa [hsame] at hfile

/-- The files of a table are there, and nothing else has changed but what is in
the directory for the shuffle. -/
structure Stands (table : Table) (job : Job) (before after : Store) : Prop where
  here_eq : after.here = before.here
  known : ∀ side task output, table side task output ≠ [] →
    ∃ format, formatFor? job output = some format ∧
      IsName (outputName output side task format) ∧
      Store.IsAccepted
        (job.output.location.child (outputName output side task format))
  file : ∀ place content, table.Holds job before.here place content →
    after.fileAt? place = some content
  others : ∀ place, (∀ content, ¬table.Holds job before.here place content) →
    ¬shufflePlace job before.here <+: place →
    after.fileAt? place = before.fileAt? place

namespace Stands

variable {before between after : Store}

theorem start (job : Job) {before after : Store}
    (hhere : after.here = before.here)
    (hkept : ∀ place, after.fileAt? place = before.fileAt? place) :
    Stands (fun _ _ _ => []) job before after where
  here_eq := hhere
  known _ _ _ hleft := absurd rfl hleft
  file := by
    rintro _ _ ⟨_, _, _, _, hleft, -⟩
    exact absurd rfl hleft
  others place _ _ := hkept place

theorem shuffled (h : Stands table job before between)
    (hhere : after.here = between.here)
    (hkept : ∀ place, ¬shufflePlace job before.here <+: place →
      after.fileAt? place = between.fileAt? place) :
    Stands table job before after where
  here_eq := hhere.trans h.here_eq
  known := h.known
  file place content hholds := by
    rw [hkept place hholds.not_below]
    exact h.file place content hholds
  others place hnone hplace := by
    rw [hkept place hplace]
    exact h.others place hnone hplace

theorem put (hinside : StaysInside job) (h : Stands table job before between)
    (hwrite : Succeeds (writeOutput job side task output pairs) between
      () after) :
    Stands (table.put side task output pairs) job before after := by
  obtain ⟨rfl, rfl⟩ | ⟨hne, format, hknown, hwrites⟩ := of_writeOutput hwrite
  · rwa [put_nil]
  have hplaceOf :=
    @placeOf_child_outputName job output (hinside output (by simp [hknown]))
  have hfile := hwrites.fileAt?_eq
  rw [h.here_eq, hplaceOf] at hfile
  refine ⟨hwrites.here_eq.trans h.here_eq, fun side' task' output' hleft => ?_,
    fun place content hholds => ?_, fun place hnone hplace => ?_⟩
  · by_cases hsame : side' = side ∧ task' = task ∧ output' = output
    · obtain ⟨rfl, rfl, rfl⟩ := hsame
      obtain ⟨parent, name, hplace, hname⟩ := hwrites.named
      rw [hplaceOf] at hplace
      obtain ⟨-, hlast⟩ := List.append_inj' hplace rfl
      exact ⟨format, hknown, List.singleton_inj.1 hlast ▸ hname,
        hwrites.accepted⟩
    · rw [put_other hsame] at hleft
      exact h.known side' task' output' hleft
  · rw [hfile]
    rw [holds_put_iff hne hknown] at hholds
    split_ifs at hholds ⊢ with hplace
    · rw [hholds]
    · exact h.file place content hholds
  · have hother :
        place ≠ outputPlace job before.here side task output format := by
      rintro rfl
      exact hnone _ ((holds_put_iff hne hknown).2 (by rw [if_pos rfl]))
    rw [hfile, if_neg hother]
    refine h.others place (fun content hholds => hnone content ?_) hplace
    rwa [holds_put_iff hne hknown, if_neg hother]

end Stands

end Table

theorem sparesShuffle_of_writeOutput {job : Job} {side : Side} {task : Nat}
    {output : String} {pairs : List Pair} {store after : Store}
    (hinside : StaysInside job)
    (h : Succeeds (writeOutput job side task output pairs) store () after) :
    SparesShuffle job store after := by
  obtain ⟨-, rfl⟩ | ⟨-, format, hknown, hwrites⟩ := of_writeOutput h
  · exact .refl job _
  refine ⟨hwrites.toBuilds, fun place hplace => ?_⟩
  have hslash := hinside output (by simp [hknown])
  rw [hwrites.fileAt?_eq, placeOf_child_outputName hslash, if_neg]
  rintro rfl
  exact not_below_shufflePlace
    (outputName_ne (by decide) output side task format) hplace

/-! ## All outputs of a task -/

/-- What an output of a task leaves. Whether the main output is written depends
on the task. When it is, it takes the place of what the task has written to it
by its name. -/
def kept (main : Bool) (actions : List Action) (output : String) : List Pair :=
  if main = true ∧ output = mainOutput ∧ written actions ≠ [] then
    written actions
  else namedPairs output actions

namespace Table

def putTask (table : Table) (side : Side) (task : Nat) (main : Bool)
    (actions : List Action) : Table :=
  fun side' task' output =>
    if kept main actions output ≠ [] ∧ side' = side ∧ task' = task then
      kept main actions output
    else table side' task' output

private theorem put_putTask (table : Table) (side : Side) (task : Nat)
    (actions : List Action) :
    (table.putTask side task false actions).put side task mainOutput
      (written actions) = table.putTask side task true actions := by
  funext side' task' output
  by_cases hsame : side' = side ∧ task' = task
  · by_cases hmain : output = mainOutput ∧ written actions ≠ []
    · simp [put, putTask, kept, hsame, hmain]
    · have hkept : kept true actions output = kept false actions output := by
        simp only [kept, true_and, if_neg hmain, Bool.false_eq_true, false_and,
          if_false]
      have hnot : ¬(written actions ≠ [] ∧ side' = side ∧ task' = task ∧
          output = mainOutput) :=
        fun h => hmain ⟨h.2.2.2, h.1⟩
      simp only [put, if_neg hnot, putTask, hkept]
  · have hnot : ¬(written actions ≠ [] ∧ side' = side ∧ task' = task ∧
        output = mainOutput) :=
      fun h => hsame ⟨h.2.1, h.2.2.1⟩
    simp only [put, if_neg hnot, putTask, hsame, and_false, if_false]

private theorem foldl_put {side : Side} {task : Nat}
    {entries : List (String × Array Pair)} (hsorted : Assoc.Sorted entries)
    (table : Table) :
    entries.foldl
      (fun table entry => table.put side task entry.1 entry.2.toList) table =
      fun side' task' output =>
        let pairs := ((Assoc.lookup output entries).getD #[]).toList
        if pairs ≠ [] ∧ side' = side ∧ task' = task then pairs
        else table side' task' output := by
  induction entries generalizing table with
  | nil =>
      funext side' task' output
      simp [Assoc.lookup]
  | cons entry rest ih =>
      obtain ⟨hfirst, hrest⟩ := List.pairwise_cons.1 hsorted
      rw [List.foldl_cons, ih hrest]
      funext side' task' output
      by_cases hsame : output = entry.1
      · subst hsame
        have hnone : Assoc.lookup entry.1 rest = none := by
          cases hfound : Assoc.lookup entry.1 rest with
          | none => rfl
          | some pairs =>
              have hlt := hfirst _ (Assoc.mem_of_lookup hfound)
              simp at hlt
        have hself : Assoc.lookup entry.1 (entry :: rest) = some entry.2 := by
          simp [Assoc.lookup]
        simp [hnone, hself, put]
      · have hother : Assoc.lookup output (entry :: rest) =
            Assoc.lookup output rest := by
          simp [Assoc.lookup, hsame]
        simp [hother, put, hsame]

namespace Stands

variable {table : Table} {job : Job} {side : Side} {task : Nat}
  {before between after : Store}

private theorem putAll (hinside : StaysInside job)
    {entries : List (String × Array Pair)} (h : Stands table job before between)
    (hwrite : Succeeds (writeAll job side task entries) between () after) :
    Stands
      (entries.foldl
        (fun table entry => table.put side task entry.1 entry.2.toList) table)
      job before after := by
  induction entries generalizing table between with
  | nil =>
      obtain ⟨-, rfl⟩ := succeeds_pure_iff.1 hwrite
      exact h
  | cons entry rest ih =>
      obtain ⟨⟨⟩, passed, hfirst, hrest⟩ := succeeds_bind_iff.1 hwrite
      exact ih (h.put hinside hfirst) hrest

theorem putNamed (hinside : StaysInside job) {actions : List Action}
    (h : Stands table job before between)
    (hwrite : Succeeds
      (writeAll job side task (({} : Task).performAll actions).named.toList)
      between () after) :
    Stands (table.putTask side task false actions) job before after := by
  have hall := h.putAll hinside hwrite
  have hsorted : Assoc.Sorted (({} : Task).performAll actions).named.toList :=
    SortedMap.sorted _
  rw [foldl_put hsorted] at hall
  have hlist : ∀ output, ((Assoc.lookup output
      (({} : Task).performAll actions).named.toList).getD #[]).toList =
      namedPairs output actions :=
    fun output => Task.namedList_performAll {} output actions
  simp only [hlist] at hall
  exact hall

theorem putMain (hinside : StaysInside job) {actions : List Action}
    (h : Stands (table.putTask side task false actions) job before between)
    (hwrite : Succeeds (writeOutput job side task mainOutput
      (({} : Task).performAll actions).emitted.toList) between () after) :
    Stands (table.putTask side task true actions) job before after := by
  have hmain := h.put hinside hwrite
  have hemitted : (({} : Task).performAll actions).emitted.toList =
      written actions :=
    Task.emitted_performAll {} actions
  rwa [hemitted, put_putTask] at hmain

end Stands

end Table

theorem sparesShuffle_of_writeAll {job : Job} {side : Side} {task : Nat}
    {entries : List (String × Array Pair)} {store after : Store}
    (hinside : StaysInside job)
    (h : Succeeds (writeAll job side task entries) store () after) :
    SparesShuffle job store after := by
  induction entries generalizing store with
  | nil =>
      obtain ⟨-, rfl⟩ := succeeds_pure_iff.1 h
      exact .refl job _
  | cons entry rest ih =>
      obtain ⟨⟨⟩, between, hfirst, hrest⟩ := succeeds_bind_iff.1 h
      exact (sparesShuffle_of_writeOutput hinside hfirst).trans (ih hrest)

end JobChain.Engine
