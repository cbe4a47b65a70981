import JobChain.Proofs.Plan.Divisions

/-!
# The growth of plans

A plan grows by one stage after the other, entered under any kind or under its
own. Whatever the order, its blocks are the tight division of the stages so far,
and its mode tells how the last of them ends.
-/

namespace JobChain

private theorem Block.hasReduce_iff (block : Block) :
    block.hasReduce = true ↔ EndsInReduce block.stages := by
  unfold hasReduce reduceStage? EndsInReduce
  cases block.stages.getLast? <;> simp

namespace Plan

/-! ## Entering stages -/

/-- The calls by which a stage can be appended. -/
inductive Entry where
  | ofAnyKind
  | ofMap
  | ofMapReduce
  deriving DecidableEq, Repr

def Entry.fits : Entry → Stage → Bool
  | .ofAnyKind, _ => true
  | .ofMap, stage => !stage.isMapReduce
  | .ofMapReduce, stage => stage.isMapReduce

def enter (plan : Plan) (entry : Entry)
    (stage : Stage) : Except ShapeError Plan :=
  match entry with
  | .ofAnyKind => plan.append stage
  | .ofMap => plan.appendMap stage
  | .ofMapReduce => plan.appendMapReduce stage

def enterAll (plan : Plan) : List (Entry × Stage) → Except ShapeError Plan
  | [] => .ok plan
  | (entry, stage) :: rest =>
      match plan.enter entry stage with
      | .error error => .error error
      | .ok plan => plan.enterAll rest

theorem enter_eq_push {plan : Plan} {entry : Entry} {stage : Stage}
    (hvalid : stage.check = .ok ()) (hfits : entry.fits stage = true) :
    plan.enter entry stage = .ok (plan.push stage) := by
  cases entry <;> simp_all [enter, append_eq, appendMap_eq, appendMapReduce_eq,
    Entry.fits]

private theorem eq_push_of_enter {plan grown : Plan} {entry : Entry}
    {stage : Stage}
    (h : plan.enter entry stage = .ok grown) : grown = plan.push stage := by
  cases hcheck : stage.check <;> cases entry <;>
    simp_all [enter, append_eq, appendMap_eq, appendMapReduce_eq] <;>
    split at h <;> simp_all

theorem exists_enterAll {entries : List (Entry × Stage)}
    (hvalid : ∀ entry ∈ entries, entry.2.check = .ok ())
    (hfits : ∀ entry ∈ entries, entry.1.fits entry.2 = true) (plan : Plan) :
    ∃ grown, plan.enterAll entries = .ok grown := by
  induction entries generalizing plan with
  | nil => exact ⟨plan, rfl⟩
  | cons entry rest ih =>
      obtain ⟨grown, hgrown⟩ :=
        ih (fun e he => hvalid e (List.mem_cons_of_mem _ he))
          (fun e he => hfits e (List.mem_cons_of_mem _ he)) (plan.push entry.2)
      refine ⟨grown, ?_⟩
      rw [enterAll,
        enter_eq_push (hvalid _ List.mem_cons_self)
          (hfits _ List.mem_cons_self)]
      exact hgrown

/-! ## The invariant -/

def Mode.ofBlocks (blocks : List Block) : Mode :=
  match blocks.getLast? with
  | none => .empty
  | some block => if block.hasReduce then .closed else .openMaps

/-- The plan holds the tight division of the stages, and its mode has kept up
with it. -/
structure IsTightFor (plan : Plan) (stages : List Stage) : Prop where
  divides : IsDivision stages (plan.blocks.map Block.stages)
  tight : IsTight (plan.blocks.map Block.stages)
  ordinals : plan.blocks.map Block.ordinal = List.range plan.blocks.length
  mode_eq : plan.mode = Mode.ofBlocks plan.blocks

theorem isTightFor_nil : IsTightFor {} [] where
  divides := ⟨rfl, by simp, by simp⟩
  tight := by simp [IsTight]
  ordinals := rfl
  mode_eq := rfl

private theorem extendLast_concat (stage : Stage) (blocks : List Block)
    (block : Block) : extendLast stage (blocks ++ [block]) =
      blocks ++ [{ block with stages := block.stages ++ [stage] }] := by
  induction blocks with
  | nil => rfl
  | cons first rest ih =>
      have hcons : extendLast stage (first :: (rest ++ [block])) =
          first :: extendLast stage (rest ++ [block]) := by
        cases rest <;> rfl
      simp [hcons, ih]

namespace IsTightFor

variable {plan : Plan} {stages : List Stage} {stage : Stage}

private theorem endsInReduce (h : IsTightFor plan stages)
    (hclosed : plan.mode ≠ .openMaps) : ∀ block ∈ plan.blocks.map Block.stages,
    EndsInReduce block := by
  rcases List.eq_nil_or_concat' plan.blocks with hnil | ⟨blocks, block, hconcat⟩
  · simp [hnil]
  · have htight := h.tight
    have hmode := h.mode_eq
    rw [hconcat] at htight hmode ⊢
    have hreduce : block.hasReduce = true := by
      by_contra hmaps
      exact hclosed (by simpa [Mode.ofBlocks, hmaps] using hmode)
    intro b hb
    rw [List.map_append, List.map_singleton] at hb htight
    rcases List.mem_append.1 hb with hb | hb
    · exact htight b (by rwa [List.dropLast_concat])
    · obtain rfl : b = block.stages := by simpa using hb
      exact block.hasReduce_iff.1 hreduce

theorem push (h : IsTightFor plan stages) :
    IsTightFor (plan.push stage) (stages ++ [stage]) := by
  by_cases hopen : plan.mode = .openMaps
  · obtain ⟨blocks, block, hconcat⟩ : ∃ blocks block, plan.blocks = blocks ++
        [block] := by
      rcases List.eq_nil_or_concat' plan.blocks with hnil | hconcat
      · simp [h.mode_eq, hnil, Mode.ofBlocks] at hopen
      · exact hconcat
    obtain ⟨hdivides, htight, hordinals, hmode⟩ := h
    rw [hconcat] at hdivides htight hordinals hmode
    rw [List.map_append, List.map_singleton] at hdivides htight
    have hmaps : ¬EndsInReduce block.stages := by
      rw [← block.hasReduce_iff]
      intro hreduce
      simp [hopen, Mode.ofBlocks, hreduce] at hmode
    have hblocks : (plan.push stage).blocks =
        blocks ++ [{ block with stages := block.stages ++ [stage] }] := by
      simp [Plan.push, hopen, hconcat, extendLast_concat]
    constructor
    · simpa [hblocks] using hdivides.extendLast hmaps
    · simpa [hblocks] using htight.extendLast
    · simpa [hblocks] using hordinals
    · rw [hblocks]
      simp [Plan.push, Mode.ofBlocks, Block.hasReduce, Block.reduceStage?]
  · have hblocks : (plan.push stage).blocks =
        plan.blocks ++ [⟨plan.blocks.length, [stage]⟩] := by
      simp [Plan.push, hopen, Plan.openBlock]
    constructor
    · simpa [hblocks] using h.divides.openBlock
    · simpa [hblocks] using IsTight.openBlock (h.endsInReduce hopen)
    · simp [hblocks, h.ordinals, List.range_succ]
    · rw [hblocks]
      simp [Plan.push, Mode.ofBlocks, Block.hasReduce, Block.reduceStage?]

theorem enterAll {entries : List (Entry × Stage)} {grown : Plan}
    (h : IsTightFor plan stages) (hgrown : plan.enterAll entries = .ok grown) :
    IsTightFor grown (stages ++ entries.map Prod.snd) := by
  induction entries generalizing plan stages with
  | nil =>
      obtain rfl : plan = grown := by simpa [Plan.enterAll] using hgrown
      simpa using h
  | cons entry rest ih =>
      obtain ⟨entry, stage⟩ := entry
      simp only [Plan.enterAll] at hgrown
      cases henter : plan.enter entry stage with
      | error error => simp [henter] at hgrown
      | ok next =>
          obtain rfl := eq_push_of_enter henter
          have hpush : IsTightFor (plan.push stage) (stages ++ [stage]) :=
            h.push
          simpa using ih hpush (by simpa [henter] using hgrown)

private theorem mode_empty_iff (h : IsTightFor plan stages) :
    plan.mode = .empty ↔ plan.blocks = [] := by
  rw [h.mode_eq, Mode.ofBlocks, ← List.getLast?_eq_none_iff]
  cases plan.blocks.getLast? with
  | none => simp
  | some block => cases hreduce : block.hasReduce <;> simp [hreduce]

private theorem mode_openMaps_iff (h : IsTightFor plan stages) :
    plan.mode = .openMaps ↔
      ∃ block, plan.blocks.getLast? = some block ∧ block.hasReduce = false := by
  rw [h.mode_eq, Mode.ofBlocks]
  cases plan.blocks.getLast? with
  | none => simp
  | some block => cases hreduce : block.hasReduce <;> simp [hreduce]

private theorem mode_closed_iff (h : IsTightFor plan stages) :
    plan.mode = .closed ↔
      ∃ block, plan.blocks.getLast? = some block ∧ block.hasReduce = true := by
  rw [h.mode_eq, Mode.ofBlocks]
  cases plan.blocks.getLast? with
  | none => simp
  | some block => cases hreduce : block.hasReduce <;> simp [hreduce]

end IsTightFor

/-! ## Grown plans -/

/-- Well-formed stages give a plan whose blocks are the only division of them
with so few blocks. -/
theorem enterAll_least_division (entries : List (Entry × Stage))
    (hvalid : ∀ entry ∈ entries, entry.2.check = .ok ())
    (hfits : ∀ entry ∈ entries, entry.1.fits entry.2 = true) :
    ∃ plan, enterAll {} entries = .ok plan ∧
      plan.blocks.flatMap Block.stages = entries.map Prod.snd ∧
      plan.blocks.map Block.ordinal = List.range plan.blocks.length ∧
      (∀ block ∈ plan.blocks, block.stages ≠ [] ∧
        ∀ stage ∈ block.stages.dropLast, stage.isMapReduce = false) ∧
      (∀ block ∈ plan.blocks.dropLast, block.hasReduce = true) ∧
      (plan.mode = .empty ↔ plan.blocks = []) ∧
      (plan.mode = .openMaps ↔
        ∃ block, plan.blocks.getLast? = some block ∧ block.hasReduce = false) ∧
      (plan.mode = .closed ↔
        ∃ block, plan.blocks.getLast? = some block ∧ block.hasReduce = true) ∧
      ∀ division, IsDivision (entries.map Prod.snd) division →
        plan.blocks.length ≤ division.length ∧
          (division.length = plan.blocks.length →
            division = plan.blocks.map Block.stages) := by
  obtain ⟨plan, hplan⟩ := exists_enterAll hvalid hfits {}
  have h := isTightFor_nil.enterAll hplan
  rw [List.nil_append] at h
  refine ⟨plan, hplan, ?_, h.ordinals, ?_, ?_, h.mode_empty_iff,
    h.mode_openMaps_iff, h.mode_closed_iff, ?_⟩
  · rw [List.flatMap_def, h.divides.flatten_eq]
  · intro block hblock
    have hstages : block.stages ∈ plan.blocks.map Block.stages :=
      List.mem_map_of_mem hblock
    exact ⟨h.divides.ne_nil _ hstages, h.divides.maps_before _ hstages⟩
  · intro block hblock
    refine block.hasReduce_iff.2 (h.tight _ ?_)
    rw [← List.map_dropLast]
    exact List.mem_map_of_mem hblock
  · intro division hdivision
    simpa using h.tight.least h.divides hdivision

def sampleMap : Stage := { name := "limpiar", kind := .mapOnly, map := "clean" }

def sampleMapReduce : Stage :=
  { name := "contar", kind := .mapReduce, map := "tag", reduce := some "count"
    mapOutput := some ⟨.text, .long⟩, reduceOutput := some ⟨.text, .long⟩ }

theorem enterAll_map_mapReduce_map :
    ∃ plan, enterAll {} [(.ofMap, sampleMap), (.ofMapReduce, sampleMapReduce),
        (.ofAnyKind, sampleMap)] = .ok plan ∧
      ∀ division, IsDivision [sampleMap, sampleMapReduce, sampleMap] division →
        plan.blocks.length ≤ division.length := by
  have hmap : sampleMap.check = .ok () := by decide
  have hmapReduce : sampleMapReduce.check = .ok () := by decide
  obtain ⟨plan, hplan, -, -, -, -, -, -, -, hleast⟩ :=
    enterAll_least_division
      [(.ofMap, sampleMap), (.ofMapReduce, sampleMapReduce),
        (.ofAnyKind, sampleMap)]
      (by simp [hmap, hmapReduce]) (by decide)
  exact ⟨plan, hplan, fun division hdivision => (hleast division hdivision).1⟩

end Plan

end JobChain
