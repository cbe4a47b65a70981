import JobChain.Proofs.Execution.Inputs
import JobChain.Service

/-!
# Requests that are accepted

What a service knows of a request that it has accepted: its paths are confined
and are taken from the data directory, and its jobs are those of its chain,
numbered by their places.
-/

namespace JobChain

private theorem ordinals_of_compile {chain : Chain}
    {entries : List (Plan.Entry × Stage)} {store : Store}
    {home? : Option String} {dataset : Dataset} {jobs : List Job}
    (hgrown : Plan.enterAll {} entries = .ok chain.plan)
    (h : (chain.compile store home? dataset).2 = .ok jobs) :
    jobs.map Job.ordinal = List.range jobs.length := by
  obtain ⟨package, rfl⟩ := Chain.compile_eq_ok h
  rw [List.length_map, ← (Plan.isTightFor_nil.enterAll hgrown).ordinals,
    List.map_map]
  rfl

namespace Service

/-- A request that is accepted, with what it has become. -/
structure Admits (setting : ServiceSetting) (store : Store) (id : String)
    (request : ChainRequest) (accepted : Accepted) : Prop where
  id_eq : accepted.id = id
  input_confined : request.dataset.input.isConfined = true
  output_confined : request.dataset.output.isConfined = true
  request_eq : accepted.request = request.rebase setting.data
  compiled : ∃ chain, accepted.request.chain = .ok chain ∧
    accepted.trackPaths = chain.trackPaths ∧
    (chain.compile store setting.home accepted.request.dataset).2 =
      .ok accepted.jobs

theorem admits_of_accept {setting : ServiceSetting} {store : Store}
    {id : String} {request : ChainRequest} {accepted : Accepted}
    (h : accept setting store id request = .ok accepted) :
    Admits setting store id request accepted := by
  unfold accept at h
  split at h
  · cases h
  · rename_i hconfined
    have hpaths : ∀ path ∈ [request.dataset.input, request.dataset.output],
        path.isConfined = true := by
      simpa using List.find?_eq_none.1 hconfined
    cases hchain : (request.rebase setting.data).chain with
    | error error => simp [hchain] at h
    | ok chain =>
        simp only [hchain] at h
        split at h
        · cases h
        · rename_i jobs hjobs
          cases h
          exact
            { id_eq := rfl
              input_confined := hpaths _ (by simp)
              output_confined := hpaths _ (by simp)
              request_eq := rfl
              compiled := ⟨chain, hchain, rfl, hjobs⟩ }

namespace Admits

variable {setting : ServiceSetting} {store : Store} {id : String}
  {request : ChainRequest} {accepted : Accepted}
  (h : Admits setting store id request accepted)

include h

theorem isWired : IsWired accepted.request.dataset accepted.jobs := by
  obtain ⟨chain, hchain, -, hjobs⟩ := h.compiled
  exact isWired_of_compile (ChainRequest.chain_eq_ok hchain) hjobs

theorem ordinals :
    accepted.jobs.map Job.ordinal = List.range accepted.jobs.length := by
  obtain ⟨chain, hchain, -, hjobs⟩ := h.compiled
  exact ordinals_of_compile (ChainRequest.chain_eq_ok hchain) hjobs

end Admits

/-! ## A service with a data directory -/

def sampleSetting : ServiceSetting where
  registry := .builtin
  data := ⟨"data"⟩
  newJobId := pure ""
  now := pure { seconds := 0 }

def sampleRequest : ChainRequest :=
  requestOf { input := ⟨"in"⟩, output := ⟨"out"⟩ } false

def sampleService : Service := { store := ({} : Store).put ["data"] .directory }

def sampleAccepted : Accepted where
  id := "c"
  request := sampleRequest.rebase sampleSetting.data
  trackPaths := false
  jobs := ((sampleChain.compile {} none
    { input := ⟨"data/in"⟩, output := ⟨"data/out"⟩ }).2.toOption).getD []

theorem accept_sample :
    accept sampleSetting sampleService.store "c" sampleRequest =
      .ok sampleAccepted := by rfl

end Service

end JobChain
