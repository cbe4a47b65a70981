import JobChain.Stage

/-!
# Plans

A plan divides the stages of a chain into blocks, one for each job. Stages are
appended one by one. A map-reduce stage closes its block, because what follows
it waits for its shuffle; every other stage leaves its block open.
-/

namespace JobChain

/-- The stages that run in one job. Only the last of them may have a reduce
side. -/
structure Block where
  ordinal : Nat
  stages : List Stage
  deriving DecidableEq

namespace Block

/-- The names of the map functions, which all run in the map phase. -/
def maps (block : Block) : List String := block.stages.map Stage.map

def reduceStage? (block : Block) : Option Stage :=
  block.stages.getLast?.filter Stage.isMapReduce

def hasReduce (block : Block) : Bool := block.reduceStage?.isSome

def reduceStep? (block : Block) : Option Nat :=
  if block.hasReduce then some (block.stages.length - 1) else none

def name (block : Block) : String :=
  String.intercalate " > " (block.stages.map Stage.name)

def toJson (block : Block) : Json :=
  .ofFields
    [("ordinal", .ofNat block.ordinal),
      ("stages", .array (block.stages.map Stage.toJson))]

def decoder : Decoder Block :=
  Fields.decode <| Block.mk
    <$> .required "ordinal" Decoder.nat
    <*> .required "stages" Stage.decoder.list

end Block

/-- What the last block of a plan is waiting for. -/
inductive Plan.Mode where
  | empty
  | openMaps
  | closed
  deriving DecidableEq, Repr

structure Plan where
  mode : Plan.Mode := .empty
  blocks : List Block := []
  deriving DecidableEq

namespace Plan

def Mode.names : List (String × Mode) :=
  [("NONE", .empty), ("OPEN_MAP_RUN", .openMaps), ("OPEN_REDUCE_RUN", .closed)]

/-! ## Appending -/

def extendLast (stage : Stage) : List Block → List Block
  | [] => [⟨0, [stage]⟩]
  | [block] => [{ block with stages := block.stages ++ [stage] }]
  | block :: rest => block :: extendLast stage rest

def openBlock (stage : Stage) (blocks : List Block) : List Block :=
  blocks ++ [⟨blocks.length, [stage]⟩]

def push (plan : Plan) (stage : Stage) : Plan :=
  { mode := if stage.isMapReduce then .closed else .openMaps
    blocks :=
      if plan.mode = .openMaps then extendLast stage plan.blocks
      else openBlock stage plan.blocks }

/-- Work on a plan in place. What it has done before an error stays done. -/
abbrev Work := ExceptT ShapeError (StateM Plan) Unit

namespace Work

def check (stage : Stage) : Work := ExceptT.mk (pure stage.check)

def place (stage : Stage) : Work :=
  modify fun plan =>
    { plan with
      blocks :=
        if plan.mode = .openMaps then extendLast stage plan.blocks
        else openBlock stage plan.blocks }

def turn (mode : Mode) : Work := modify fun plan => { plan with mode }

def appendMap (stage : Stage) : Work :=
  if stage.isMapReduce then throw (.notMapOnly stage.name)
  else do
    check stage
    place stage
    turn .openMaps

def appendMapReduce (stage : Stage) : Work :=
  if stage.isMapReduce then do
    check stage
    place stage
    turn .closed
  else throw (.notMapReduce stage.name)

def append (stage : Stage) : Work :=
  if stage.isMapReduce then appendMapReduce stage else appendMap stage

end Work

/-- What work makes of a plan that is given away for it. An error gives nothing
back. -/
def after (plan : Plan) (work : Work) : Except ShapeError Plan :=
  match work plan with
  | (.error error, _) => .error error
  | (.ok (), plan) => .ok plan

def append (plan : Plan) (stage : Stage) : Except ShapeError Plan :=
  plan.after (.append stage)

def appendMap (plan : Plan) (stage : Stage) : Except ShapeError Plan :=
  plan.after (.appendMap stage)

def appendMapReduce (plan : Plan) (stage : Stage) : Except ShapeError Plan :=
  plan.after (.appendMapReduce stage)

section

variable (plan : Plan) (stage : Stage)

private theorem Work.append_run : Work.append stage plan =
    match stage.check with
    | .error error => (.error error, plan)
    | .ok () => (.ok (), plan.push stage) := by
  unfold Work.append Work.appendMap Work.appendMapReduce Work.check push
  cases stage.isMapReduce <;> cases stage.check <;> rfl

theorem append_eq : plan.append stage =
    match stage.check with
    | .error error => .error error
    | .ok () => .ok (plan.push stage) := by
  rw [append, after, Work.append_run]
  cases stage.check <;> rfl

theorem appendMap_eq : plan.appendMap stage =
    if stage.isMapReduce then .error (.notMapOnly stage.name)
    else plan.append stage := by
  cases hkind : stage.isMapReduce with
  | false => rw [appendMap, append, Work.append, hkind]; rfl
  | true => rw [appendMap, after, Work.appendMap, hkind]; rfl

theorem appendMapReduce_eq : plan.appendMapReduce stage =
    if stage.isMapReduce then plan.append stage
    else .error (.notMapReduce stage.name) := by
  cases hkind : stage.isMapReduce with
  | false => rw [appendMapReduce, after, Work.appendMapReduce, hkind]; rfl
  | true => rw [appendMapReduce, append, Work.append, hkind]; rfl

end

def appendAll (plan : Plan) : List Stage → Except ShapeError Plan
  | [] => .ok plan
  | stage :: rest =>
      match plan.append stage with
      | .error error => .error error
      | .ok plan => plan.appendAll rest

/-! ## As JSON -/

def toJson (plan : Plan) : Json :=
  .ofFields [("mode", nameIn Mode.names plan.mode),
    ("jobs", .array (plan.blocks.map Block.toJson))]

def decoder : Decoder Plan :=
  Fields.decode <| Plan.mk
    <$> .required "mode" (Decoder.oneOf Mode.names)
    <*> .required "jobs" Block.decoder.list

end Plan

end JobChain
