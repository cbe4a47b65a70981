import JobChain.Proofs.Engine.Outputs
import JobChain.Proofs.Engine.Partitions
import JobChain.Proofs.Json.RoundTrip

/-!
# The shuffle on disk

Each partition is written to a file of its own and read back by the reduce task
that it is for. So the groups of all reduce tasks are those of all records,
however many tasks there are.
-/

namespace JobChain.Engine

/-! ## Files of partitions -/

def shuffleName (index : Nat) : String :=
  "shuffle-" ++ Text.natText index ++ "." ++ RecordFormat.intermediate.ending

private theorem mem_shuffleName {index : Nat} {c : Char}
    (h : c ∈ (shuffleName index).toList) : c.isDigit = true ∨
    c ∈ "shuffle-.kv".toList := by
  have hmem : c ∈ "shuffle-".toList ++
      (Text.natChars index ++ ".kv".toList) := by
    simpa [shuffleName, Text.natText, RecordFormat.intermediate,
      RecordFormat.ending] using h
  rcases List.mem_append.1 hmem with hmem | hmem
  · exact .inr (List.mem_append_left ".kv".toList hmem)
  · refine (List.mem_append.1 hmem).imp Text.isDigit_of_mem_natChars
      fun hmem => ?_
    exact List.mem_append_right "shuffle-".toList hmem

theorem no_slash_shuffleName (index : Nat) : '/' ∉ (shuffleName index).toList :=
  fun h => absurd (mem_shuffleName h) (by decide)

private theorem shuffleName_ne {name : String}
    (h : name.toList.head? ≠ some 's')
    (index : Nat) : shuffleName index ≠ name := by
  rintro rfl
  simp [shuffleName] at h

private theorem shuffleName_injective {index index' : Nat}
    (h : shuffleName index = shuffleName index') : index = index' := by
  refine Text.natChars_injective ?_
  have hlists := congrArg String.toList h
  simpa [shuffleName, Text.natText] using hlists

theorem isStep_shuffleName (index : Nat) :
    Path.isStep (shuffleName index) = true ∧ shuffleName index ≠ ".." := by
  have hempty :=
    shuffleName_ne (by decide : ("" : String).toList.head? ≠ some 's') index
  have hcurrent :=
    shuffleName_ne (by decide : (".":String).toList.head? ≠ some 's') index
  exact ⟨by
    simp [Path.isStep, hempty, hcurrent], shuffleName_ne (by decide) index⟩

theorem placeOf_shufflePath (directory : Path) (index : Nat) (here : Place) :
    Store.placeOf here (shufflePath directory index) =
      Store.placeOf here directory ++ [shuffleName index] :=
  Store.placeOf_child directory (no_slash_shuffleName index)
    (isStep_shuffleName index).1 (isStep_shuffleName index).2 here

/-- The files of partitions from an index on. -/
structure Shuffles (folder : Path) (index : Nat) (parts : List (List Pair))
    (paths : List Path) (before after : Store) :
    Prop extends Store.Builds before after where
  reads : List.Forall₂ (fun path pairs => after.read path =
    .ok (.text (RecordFormat.intermediate.write pairs))) paths parts
  paths_eq : paths = (List.range' index parts.length).map (shufflePath folder)
  others : ∀ place,
    (∀ other ≥ index, place ≠ Store.placeOf before.here folder ++
      [shuffleName other]) → after.fileAt? place = before.fileAt? place

theorem shuffles_of_writeShuffle {directory : Path} {index : Nat}
    {parts : List (List Pair)} {paths : List Path} {store after : Store}
    (h : Succeeds (writeShuffle directory index parts) store paths after) :
    Shuffles directory index parts paths store after := by
  induction parts generalizing index paths store with
  | nil =>
      obtain ⟨rfl, rfl⟩ := succeeds_pure_iff.1 h
      exact ⟨.refl _, .nil, rfl, fun _ _ => rfl⟩
  | cons pairs rest ih =>
      simp only [writeShuffle, succeeds_bind_iff, succeeds_ofStoreM_iff,
        succeeds_pure_iff] at h
      obtain ⟨⟨⟩, between, hsave, others, last, hrest, rfl, rfl⟩ := h
      have hwrites := Store.writes_of_save hsave
      have hlater := ih hrest
      have hfile := hwrites.fileAt?_eq
      rw [placeOf_shufflePath] at hfile
      have hhere := hwrites.here_eq
      refine ⟨hwrites.toBuilds.trans hlater.toBuilds, .cons ?_ hlater.reads, ?_,
        fun place hother => ?_⟩
      · refine hlater.read_eq_ok hwrites.read_eq
          (hlater.others _ fun other hindex heq => ?_)
        rw [placeOf_shufflePath] at heq
        have hsame :=
          shuffleName_injective
            (List.singleton_inj.1 (List.append_cancel_left heq))
        omega
      · rw [hlater.paths_eq]
        rfl
      · rw [hlater.others place fun other hindex => hhere ▸
          hother other (by omega), hfile, if_neg (hother index (Nat.le_refl _))]

/-! ## Reading back -/

def reread (pairs : List Pair) : List Pair :=
  match RecordFormat.intermediate.read
    ⟨""⟩ (.text (RecordFormat.intermediate.write pairs)) with
  | .ok pairs => pairs
  | .error _ => []

private theorem readLines_congr {file file' : Path}
    {lines : List (Option String)} {pairs : List Pair}
    (h : RecordFormat.readLines (RecordFormat.readPair file) lines =
      .ok pairs) :
    RecordFormat.readLines (RecordFormat.readPair file') lines = .ok pairs := by
  induction lines generalizing pairs with
  | nil => exact h
  | cons line rest ih =>
      cases line with
      | none => cases h
      | some line =>
          rw [RecordFormat.readLines] at h ⊢
          split_ifs at h ⊢ with hblank
          · exact ih h
          · split at h
            · cases h
            · simp only [bind_eq_ok_iff] at h ⊢
              obtain ⟨pair, hpair, others, hothers, heq⟩ := h
              refine ⟨pair, ?_, others, ih hothers, heq⟩
              unfold RecordFormat.readPair at hpair ⊢
              split at hpair
              · exact hpair
              · cases hpair

theorem reread_eq_of_read {file : Path} {pairs read : List Pair}
    (h : RecordFormat.intermediate.read file
      (.text (RecordFormat.intermediate.write pairs)) = .ok read) :
    reread pairs = read := by
  have hread : RecordFormat.intermediate.read ⟨""⟩
      (.text (RecordFormat.intermediate.write pairs)) = .ok read :=
    readLines_congr h
  rw [reread, hread]

theorem reread_eq {pairs : List Pair}
    (h : ∀ pair ∈ pairs, pair.Returns) : reread pairs = pairs :=
  reread_eq_of_read (RecordFormat.read_write_intermediate h ⟨""⟩)

theorem succeeds_readAll_iff {format : RecordFormat} {paths : List Path}
    {parts : List (List Pair)} {store after : Store} :
    Succeeds (readAll format paths) store parts after ↔
      store = after ∧ List.Forall₂ (store.Reads format) paths parts := by
  induction paths generalizing parts store after with
  | nil =>
      rw [readAll, succeeds_pure_iff, List.forall₂_nil_left_iff, and_comm,
        eq_comm (a := parts)]
  | cons path rest ih =>
      simp only [readAll, succeeds_bind_iff, succeeds_within_iff,
        succeeds_ofStoreM_iff, succeeds_pure_iff, Store.succeeds_load_iff, ih]
      constructor
      · rintro ⟨pairs, _, ⟨rfl, hpairs⟩, others, _, ⟨rfl, hothers⟩, rfl, rfl⟩
        exact ⟨rfl, .cons hpairs hothers⟩
      · rintro ⟨rfl, hall⟩
        cases hall with
        | @cons _ pairs _ others hpairs hothers =>
            exact ⟨pairs, store, ⟨rfl, hpairs⟩, others, store, ⟨rfl, hothers⟩,
              rfl, rfl⟩

private theorem succeeds_readAll {paths : List Path} {parts : List (List Pair)}
    {store : Store} (hreads : List.Forall₂ (fun path pairs => store.read path =
      .ok (.text (RecordFormat.intermediate.write pairs))) paths parts)
    (h : ∀ pairs ∈ parts, ∀ pair ∈ pairs, pair.Returns) :
    Succeeds (readAll .intermediate paths) store parts store := by
  refine succeeds_readAll_iff.2 ⟨rfl, ?_⟩
  induction hreads with
  | nil => exact .nil
  | @cons path pairs paths rest hread hreads ih =>
      obtain ⟨hpairs, hrest⟩ := List.forall_mem_cons.1 h
      exact .cons ⟨_, hread, RecordFormat.read_write_intermediate hpairs path⟩
        (ih hrest)

/-! ## Groups -/

/-- For any number of partitions: every key has one of them; keys that an order
calls equal have the same one, unless the order blurs them; and where it blurs
none of the keys of some records, the groups of all partitions are those of all
records, one for each class of equal keys. That stays so when the partitions are
written and read back, where the records come back at all. The order by numbers
is no order on some keys, which has to be excluded. -/
theorem groups_of_partitions (order : KeyOrder) (count : Nat)
    (hcount : 0 < count) : (∀ key, partitionOf count key < count) ∧
    (∀ x y, order.compare x y = .eq → order.blurs x y = false →
      partitionOf count x = partitionOf count y) ∧
    ∀ pairs : List Pair,
      (∀ first ∈ pairs, ∀ second ∈ pairs, order.blurs first.key second.key =
        false) →
      (order = .numeric → order.IsTransOn (Pair.keys pairs)) →
      ((partitions count pairs).flatMap (Group.ofPairs order)).Perm
        (Group.ofPairs order pairs) ∧
      (Group.ofPairs order pairs).Nodup ∧
      (∀ group, group ∈ Group.ofPairs order pairs ↔
        ∃ pair ∈ pairs, Group.ofKey? order pair.key pairs = some group) ∧
      ((∀ pair ∈ pairs, pair.Returns) → ∀ directory store paths after,
        Succeeds (writeShuffle directory 0 (partitions count pairs)) store
          paths after →
          Succeeds (readAll .intermediate paths) after
            (partitions count pairs) after) := by
  refine ⟨partitionOf_lt hcount, fun x y hequal hclear => ?_,
    fun pairs hclear htransitive => ?_⟩
  · exact partitionOf_eq_of_compare_eq hequal hclear count
  have htrans : order.IsTransOn (Pair.keys pairs) := by
    by_cases horder : order = .numeric
    · exact htransitive horder
    · refine KeyOrder.isTransOn_of_clear horder fun x hx y hy => ?_
      obtain ⟨first, hfirst, rfl⟩ := List.mem_map.1 hx
      obtain ⟨second, hsecond, rfl⟩ := List.mem_map.1 hy
      exact hclear first hfirst second hsecond
  have hwhole : Whole order count pairs :=
    fun first hfirst second hsecond hequal =>
      partitionOf_eq_of_compare_eq hequal
        (hclear first hfirst second hsecond) count
  refine ⟨groups_perm hwhole htrans hcount, Group.nodup_ofPairs htrans,
    fun group => Group.mem_ofPairs_iff htrans,
    fun hreturns directory store paths after hwrite => ?_⟩
  refine succeeds_readAll (shuffles_of_writeShuffle hwrite).reads
    fun part hpart pair hpair => ?_
  rw [partitions_eq] at hpart
  obtain ⟨index, -, rfl⟩ := List.mem_map.1 hpart
  exact hreturns pair (mem_partition.1 hpair).1

def numerals : List Pair :=
  [⟨.string "2", .ofNat 1⟩, ⟨.ofNat 10, .ofNat 2⟩, ⟨.string "2", .ofNat 3⟩]

private theorem returns_numerals : ∀ pair ∈ numerals, pair.Returns := by
  have hflat : ∀ pair ∈ numerals,
      (pair.key.depth = 0 ∧ pair.key.isStable = true) ∧
      pair.value.depth = 0 ∧ pair.value.isStable = true := by decide
  intro pair hpair
  obtain ⟨hkey, hvalue⟩ := hflat pair hpair
  exact ⟨Json.returns_of_flat hkey.1 hkey.2 _,
    Json.returns_of_flat hvalue.1 hvalue.2 _⟩

theorem groups_of_partitions_numerals :
    0 < 3 ∧ (∀ first ∈ numerals, ∀ second ∈ numerals,
      KeyOrder.numeric.blurs first.key second.key = false) ∧
    KeyOrder.numeric.IsTransOn (Pair.keys numerals) ∧
    (∀ pair ∈ numerals, pair.Returns) ∧
    partitionOf 3 (.string "2") < 3 ∧
    (⟨.string "2", [.ofNat 1, .ofNat 3]⟩ : Group) ∈
      (partitions 3 numerals).flatMap (Group.ofPairs .numeric) ∧
    ∃ paths after, Succeeds (writeShuffle ⟨"d"⟩ 0 (partitions 3 numerals))
      {} paths after ∧
      Succeeds (readAll .intermediate paths) after
        (partitions 3 numerals) after := by
  have hclear : ∀ first ∈ numerals, ∀ second ∈ numerals,
      KeyOrder.numeric.blurs first.key second.key = false := by decide +kernel
  have htrans : KeyOrder.numeric.IsTransOn (Pair.keys numerals) :=
    KeyOrder.isTransOn_numeric (by decide +kernel)
  obtain ⟨hbound, -, hgroups⟩ := groups_of_partitions .numeric 3 (by decide)
  obtain ⟨hperm, -, hmem, hdisk⟩ := hgroups numerals hclear fun _ => htrans
  refine ⟨by decide, hclear, htrans, returns_numerals, hbound _, ?_, ?_⟩
  · rw [hperm.mem_iff, hmem]
    exact ⟨_, List.mem_cons_self, by decide +kernel⟩
  · have hwrite : ∃ paths after,
        Succeeds (writeShuffle ⟨"d"⟩ 0 (partitions 3 numerals))
          {} paths after := by
      rw [partitions_eq]
      exact ⟨_, _, rfl⟩
    obtain ⟨paths, after, hwrite⟩ := hwrite
    exact ⟨paths, after, hwrite,
      hdisk returns_numerals ⟨"d"⟩ {} paths after hwrite⟩

end JobChain.Engine
