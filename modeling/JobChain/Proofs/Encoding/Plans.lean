import JobChain.Proofs.Encoding.Criteria
import JobChain.Proofs.Plan.Growth

/-!
# Plans that come back

A stage comes back from its text with whatever it has and lacks, and a plan with
all its blocks and its mode, so that it goes on growing where it stood.
-/

namespace JobChain

open Fields (takesBack_single takesBack_required takesBack_optional)

theorem StageKind.takesBack (kind : StageKind) (levels : Nat) :
    (Decoder.oneOf names).TakesBack levels (nameIn names kind) kind := by
  cases kind <;> exact ⟨rfl, fun _ _ => rfl⟩

theorem FieldType.takesBack (fieldType : FieldType) (levels : Nat) :
    (Decoder.oneOf names).TakesBack levels
      (nameIn names fieldType) fieldType := by
  cases fieldType <;> exact ⟨rfl, fun _ _ => rfl⟩

theorem KeyOrder.takesBack (order : KeyOrder) (levels : Nat) :
    decoder.TakesBack levels order.toJson order := by
  cases order <;> exact ⟨rfl, fun _ _ => rfl⟩

theorem Plan.Mode.takesBack (mode : Plan.Mode) (levels : Nat) :
    (Decoder.oneOf names).TakesBack levels (nameIn names mode) mode := by
  cases mode <;> exact ⟨rfl, fun _ _ => rfl⟩

theorem PairType.takesBack (pair : PairType) :
    decoder.TakesBack 1 pair.toJson pair := by
  have hkey := takesBack_required "key" (pair.key.takesBack 0)
  have hvalue := takesBack_required "value" (pair.value.takesBack 0)
  exact ((hkey.map PairType.mk).seq hvalue (by decide)).decode

theorem Options.takesBack (options : Options) :
    decoder.TakesBack 1 options.toJson options :=
  Decoder.takesBack_sortedMap fun entry _ => Decoder.takesBack_text entry.2 0

namespace Stage

theorem takesBack (stage : Stage) : decoder.TakesBack 2 stage.toJson stage := by
  have hname := takesBack_required "name" (Decoder.takesBack_text stage.name 1)
  have hkind := takesBack_required "kind" (stage.kind.takesBack 1)
  have hmap := takesBack_required "map" (Decoder.takesBack_text stage.map 1)
  have hcombine :=
    @takesBack_optional _ 1 "combine" Decoder.text .string stage.combine
      fun text _ => ⟨Decoder.takesBack_text text 1, Json.noConfusion⟩
  have hreduce :=
    @takesBack_optional _ 1 "reduce" Decoder.text .string stage.reduce
      fun text _ => ⟨Decoder.takesBack_text text 1, Json.noConfusion⟩
  have horder :=
    @takesBack_optional _ 1 "sort_comparator" KeyOrder.decoder KeyOrder.toJson
      stage.keyOrder fun order _ =>
        ⟨order.takesBack 1, by cases order <;> exact Json.noConfusion⟩
  have hmapOutput :=
    @takesBack_optional _ 1 "map_output" PairType.decoder PairType.toJson
      stage.mapOutput fun pair _ => ⟨pair.takesBack, Json.noConfusion⟩
  have hreduceOutput :=
    @takesBack_optional _ 1 "reduce_output" PairType.decoder PairType.toJson
      stage.reduceOutput fun pair _ => ⟨pair.takesBack, Json.noConfusion⟩
  have hoptions :=
    takesBack_single "config" (.ok .empty) (.ok .empty) stage.options.takesBack
  exact (((((((((hname.map Stage.mk).seq hkind (by decide)).seq hmap
    (by decide)).seq hcombine (by decide)).seq hreduce (by decide)).seq horder
    (by decide)).seq hmapOutput (by decide)).seq hreduceOutput (by decide)).seq
    hoptions (by decide)).decode

end Stage

theorem Block.takesBack {block : Block}
    (hordinal : block.ordinal < 0x10000000000000000) :
    decoder.TakesBack 4 block.toJson block := by
  have hnumber :=
    takesBack_required "ordinal" (Decoder.takesBack_nat hordinal 3)
  have hstages := takesBack_required "stages"
    (Decoder.takesBack_list fun stage (_ : stage ∈ block.stages) =>
      stage.takesBack)
  exact ((hnumber.map Block.mk).seq hstages (by decide)).decode

namespace Plan

theorem takesBack {plan : Plan}
    (hordinals : ∀ block ∈ plan.blocks, block.ordinal < 0x10000000000000000) :
    decoder.TakesBack 6 plan.toJson plan := by
  have hmode := takesBack_required "mode" (plan.mode.takesBack 5)
  have hjobs := takesBack_required "jobs"
    (Decoder.takesBack_list fun block hblock =>
      Block.takesBack (hordinals block hblock))
  exact ((hmode.map Plan.mk).seq hjobs (by decide)).decode

/-- Blocks are numbered by their places, so that their numbers are no larger
than the plan. -/
theorem ordinal_lt {entries : List (Entry × Stage)} {plan : Plan}
    (h : enterAll {} entries = .ok plan) {block : Block}
    (hblock : block ∈ plan.blocks) : block.ordinal < plan.blocks.length := by
  have hordinals := (isTightFor_nil.enterAll h).ordinals
  have hmem := List.mem_map_of_mem (f := Block.ordinal) hblock
  rw [hordinals] at hmem
  exact List.mem_range.1 hmem

end Plan

/-! ## Criteria and plans -/

/-- Criteria come back from their texts, also those that were read from other
texts, and so do stages and the plans that stages grow into, if they have no
more blocks than 64 bits number. So a plan that came back grows as the one that
was written. -/
theorem come_back_from_text :
    (∀ criterion : Criterion,
      (∀ value ∈ criterion.value?, value.IsWritable 126) →
      Criterion.decode criterion.encode = .ok criterion) ∧
    (∀ (text : String) (criterion : Criterion),
      Criterion.decode text = .ok criterion →
      (∀ value ∈ criterion.value?, ∀ x hfinite,
        Json.Contains (.float x hfinite) value →
        (Number.float x hfinite).isStable = true) →
      Criterion.decode criterion.encode = .ok criterion) ∧
    (∀ stage : Stage, Stage.decoder.ofText stage.toJson.text = .ok stage) ∧
    ∀ (entries : List (Plan.Entry × Stage)) (plan : Plan),
      Plan.enterAll {} entries = .ok plan →
      plan.blocks.length ≤ 2 ^ 64 →
      ∃ restored, Plan.decoder.ofText plan.toJson.text = .ok restored ∧
        restored = plan ∧
        ∀ more, restored.enterAll more = plan.enterAll more := by
  have hcriteria : ∀ criterion : Criterion,
      (∀ value ∈ criterion.value?, value.IsWritable 126) →
      Criterion.decode criterion.encode = .ok criterion := fun criterion h =>
    Criterion.decode_encode fun value hvalue =>
      Json.isWritable_iff.1 (h value hvalue)
  refine ⟨hcriteria, ?_, ?_, ?_⟩
  · intro text criterion hread hfloats
    refine hcriteria criterion fun value hvalue => ?_
    obtain ⟨hcanonical, hshallow⟩ :=
      Criterion.canonical_of_decode hread value hvalue
    exact ⟨hcanonical, hfloats value hvalue, hshallow⟩
  · exact fun stage => stage.takesBack.ofText (by decide)
  · intro entries plan hgrown hsize
    have hordinals : ∀ block ∈ plan.blocks,
        block.ordinal < 0x10000000000000000 :=
      fun block hblock =>
        Nat.lt_of_lt_of_le (Plan.ordinal_lt hgrown hblock) hsize
    exact ⟨plan, (Plan.takesBack hordinals).ofText (by decide), rfl,
      fun _ => rfl⟩

def sampleCriterion : Criterion :=
  .propertyCompare "since" .ge (.ofFields
    [("a\"b",
      .array [.number
        (.float ⟨false, 0x3FE0000000000000, Nat.le_of_ble_eq_true rfl⟩ rfl)]),
      ("c", .string "\n")])

def sampleText : String :=
  "\x7b \"value\": \x7b\"c\": \"\\n\", \"a\\\"b\": [5.0e-1]\x7d, \"op\": \">=\"," ++
    " \"key\": \"since\", \"kind\": \"property_compare\" \x7d"

private theorem isWritable_sampleCriterion : ∀ value ∈ sampleCriterion.value?,
    value.IsWritable 126 := by
  have hshape : ∀ value ∈ sampleCriterion.value?, value.isStable = true ∧
      value.depth ≤ 126 := by
    decide +kernel
  have hcanonical : ∀ value ∈ sampleCriterion.value?, value.Canonical := by
    simp [sampleCriterion, Criterion.value?, Json.ofFields, Json.Canonical,
      Json.CanonicalFields, Json.CanonicalItems, Assoc.Sorted]
    decide
  intro value hvalue
  obtain ⟨hstable, hdepth⟩ := hshape value hvalue
  exact Json.isWritable_iff.2 ⟨hcanonical value hvalue, hstable, hdepth⟩

theorem come_back_from_text_sample :
    Criterion.decode sampleText = .ok sampleCriterion ∧
      Criterion.decode sampleCriterion.encode = .ok sampleCriterion ∧
      Stage.decoder.ofText Plan.sampleMapReduce.toJson.text =
        .ok Plan.sampleMapReduce ∧
      ∃ plan, Plan.enterAll {} [(.ofMap, Plan.sampleMap),
        (.ofMapReduce, Plan.sampleMapReduce),
          (.ofAnyKind, Plan.sampleMap)] = .ok plan ∧
        ∃ restored, Plan.decoder.ofText plan.toJson.text = .ok restored ∧
          restored = plan := by
  obtain ⟨-, hread, hstages, hplans⟩ := come_back_from_text
  have hdecoded : Criterion.decode sampleText = .ok sampleCriterion := by
    decide +kernel
  have hagain := hread sampleText sampleCriterion hdecoded fun value hvalue =>
    (isWritable_sampleCriterion value hvalue).floats
  obtain ⟨plan, hplan⟩ : ∃ plan, Plan.enterAll {} [(.ofMap, Plan.sampleMap),
      (.ofMapReduce, Plan.sampleMapReduce), (.ofAnyKind, Plan.sampleMap)] =
        .ok plan := ⟨_, rfl⟩
  have hsize : plan.blocks.length ≤ 2 ^ 64 := by
    cases hplan
    decide
  obtain ⟨restored, hrestored, hsame, -⟩ := hplans _ plan hplan hsize
  exact ⟨hdecoded, hagain, hstages _, plan, hplan, restored, hrestored, hsame⟩

end JobChain
