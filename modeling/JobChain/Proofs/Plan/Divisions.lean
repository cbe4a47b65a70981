import JobChain.Plan
import Mathlib.Data.List.Basic

/-!
# Divisions of stages

A division of stages cuts them into blocks, none of them empty, in which a
map-reduce stage stands at the end or nowhere. The division that cuts behind a
map-reduce stage and nowhere else has the fewest blocks, and it is the only one
with so few.
-/

namespace JobChain

/-! ## Divisions -/

structure IsDivision (stages : List Stage)
    (division : List (List Stage)) : Prop where
  flatten_eq : division.flatten = stages
  ne_nil : ∀ block ∈ division, block ≠ []
  maps_before : ∀ block ∈ division, ∀ stage ∈ block.dropLast,
      stage.isMapReduce = false

def EndsInReduce (block : List Stage) : Prop :=
  ∃ stage, block.getLast? = some stage ∧ stage.isMapReduce = true

/-- A division that cuts behind map-reduce stages alone. -/
def IsTight (division : List (List Stage)) : Prop :=
  ∀ block ∈ division.dropLast, EndsInReduce block

namespace IsDivision

variable {stages : List Stage} {block other : List Stage}
  {division others : List (List Stage)}

theorem tail (h : IsDivision stages (block :: division)) :
    IsDivision division.flatten division where
  flatten_eq := rfl
  ne_nil b hb := h.ne_nil b (List.mem_cons_of_mem _ hb)
  maps_before b hb := h.maps_before b (List.mem_cons_of_mem _ hb)

/-- Without some stages at the front of its first block a division divides the
others. -/
theorem drop_front {front : List Stage} (hne : block ≠ [])
    (h : IsDivision stages ((front ++ block) :: division)) :
    IsDivision (block ++ division.flatten) (block :: division) where
  flatten_eq := rfl
  ne_nil := by
    intro b hb
    rcases List.mem_cons.1 hb with rfl | hb
    · exact hne
    · exact h.ne_nil b (List.mem_cons_of_mem _ hb)
  maps_before := by
    intro b hb stage hstage
    rcases List.mem_cons.1 hb with rfl | hb
    · refine h.maps_before _ List.mem_cons_self stage ?_
      rw [List.dropLast_append_of_ne_nil hne]
      exact List.mem_append_right _ hstage
    · exact h.maps_before b (List.mem_cons_of_mem _ hb) stage hstage

private theorem length_le_of_endsInReduce
    (h : IsDivision stages (block :: division)) (hends : EndsInReduce block)
    (hother : IsDivision stages (other :: others)) :
    other.length ≤ block.length := by
  obtain ⟨stage, hlast, hreduce⟩ := hends
  by_contra hlt
  have hflat : block ++ division.flatten = other ++ others.flatten := by
    simpa using h.flatten_eq.trans hother.flatten_eq.symm
  have hprefix : block <+: other ++ others.flatten :=
    hflat ▸ List.prefix_append ..
  have hfront : block <+: other :=
    List.prefix_of_prefix_length_le hprefix (List.prefix_append ..) (by omega)
  obtain ⟨rest, rfl⟩ := hfront
  have hrest : rest ≠ [] := by
    rintro rfl
    simp at hlt
  have hmem : stage ∈ (block ++ rest).dropLast := by
    rw [List.dropLast_append_of_ne_nil hrest]
    exact List.mem_append_left _ (List.mem_of_getLast? hlast)
  have hmap := hother.maps_before _ List.mem_cons_self stage hmem
  simp [hreduce] at hmap

/-! ## One more stage -/

variable {stage : Stage}

theorem openBlock (h : IsDivision stages division) :
    IsDivision (stages ++ [stage]) (division ++ [[stage]]) where
  flatten_eq := by simp [h.flatten_eq]
  ne_nil := by
    intro b hb
    rcases List.mem_append.1 hb with hb | hb
    · exact h.ne_nil b hb
    · simp_all
  maps_before := by
    intro b hb s hs
    rcases List.mem_append.1 hb with hb | hb
    · exact h.maps_before b hb s hs
    · simp_all

theorem extendLast (h : IsDivision stages (division ++ [block]))
    (hopen : ¬EndsInReduce block) :
    IsDivision (stages ++ [stage]) (division ++ [block ++ [stage]]) where
  flatten_eq := by simp [← h.flatten_eq]
  ne_nil := by
    intro b hb
    rcases List.mem_append.1 hb with hb | hb
    · exact h.ne_nil b (List.mem_append_left _ hb)
    · simp_all
  maps_before := by
    intro b hb s hs
    rcases List.mem_append.1 hb with hb | hb
    · exact h.maps_before b (List.mem_append_left _ hb) s hs
    · obtain rfl : b = block ++ [stage] := by simpa using hb
      have hs : s ∈ block := by simpa using hs
      have hne : block ≠ [] := List.ne_nil_of_mem hs
      rw [← List.dropLast_concat_getLast hne] at hs
      rcases List.mem_append.1 hs with hs | hs
      · exact h.maps_before block (by simp) s hs
      · obtain rfl : s = block.getLast hne := by simpa using hs
        by_contra hreduce
        exact hopen
          ⟨_, List.getLast?_eq_some_getLast hne, by simpa using hreduce⟩

end IsDivision

namespace IsTight

variable {b c block : List Stage} {division : List (List Stage)}

theorem tail (h : IsTight (block :: division)) : IsTight division := by
  cases division with
  | nil => simp [IsTight]
  | cons next rest => exact fun b hb => h b (List.mem_cons_of_mem _ hb)

theorem drop_front (hne : c ≠ [])
    (h : IsTight ((b ++ c) :: division)) : IsTight (c :: division) := by
  cases division with
  | nil => simp [IsTight]
  | cons next rest =>
      intro d hd
      rcases List.mem_cons.1 hd with rfl | hd
      · obtain ⟨stage, hlast, hreduce⟩ := h (b ++ d) (by simp)
        exact ⟨stage, by
          rwa [List.getLast?_append_of_ne_nil b hne] at hlast, hreduce⟩
      · exact h d (List.mem_cons_of_mem _ hd)

theorem openBlock {stage : Stage} (h : ∀ block ∈ division, EndsInReduce block) :
    IsTight (division ++ [[stage]]) := by
  intro b hb
  rw [List.dropLast_concat] at hb
  exact h b hb

theorem extendLast {stage : Stage} (h : IsTight (division ++ [block])) :
    IsTight (division ++ [block ++ [stage]]) := by
  intro b hb
  rw [List.dropLast_concat] at hb
  exact h b (by simpa using hb)

theorem least {stages : List Stage} {other : List (List Stage)}
    (htight : IsTight division) (hdivision : IsDivision stages division)
    (hother : IsDivision stages other) :
    division.length ≤ other.length ∧
    (other.length = division.length → other = division) := by
  induction other generalizing stages division with
  | nil =>
      cases division with
      | nil => simp
      | cons block rest =>
          have hflat := hdivision.flatten_eq.trans hother.flatten_eq.symm
          have hnil : block = [] ∧ ∀ c ∈ rest, c = [] := by simpa using hflat
          exact absurd hnil.1 (hdivision.ne_nil block List.mem_cons_self)
  | cons b others ih =>
      cases division with
      | nil =>
          have hflat := hother.flatten_eq.trans hdivision.flatten_eq.symm
          have hnil : b = [] ∧ ∀ c ∈ others, c = [] := by simpa using hflat
          exact absurd hnil.1 (hother.ne_nil b List.mem_cons_self)
      | cons block rest =>
          have hflat : b ++ others.flatten = block ++ rest.flatten := by
            simpa using hother.flatten_eq.trans hdivision.flatten_eq.symm
          cases rest with
          | nil =>
              refine ⟨by simp, fun hlength => ?_⟩
              obtain rfl : others = [] := by simpa using hlength
              simpa using hflat
          | cons next rest =>
              have hle : b.length ≤ block.length :=
                hdivision.length_le_of_endsInReduce
                  (htight block (by simp)) hother
              have hprefix : b <+: block ++ (next :: rest).flatten :=
                hflat ▸ List.prefix_append ..
              obtain ⟨c, rfl⟩ :=
                List.prefix_of_prefix_length_le hprefix
                  (List.prefix_append ..) hle
              have hothers : others.flatten = c ++ (next :: rest).flatten := by
                simpa using hflat
              by_cases hc : c = []
              · subst hc
                obtain ⟨hmin, hunique⟩ :=
                  ih htight.tail
                    (by simpa [hothers] using hdivision.tail) hother.tail
                refine ⟨by simpa using hmin, fun hlength => ?_⟩
                rw [hunique (by simpa using hlength)]
                simp
              · -- The other one cuts too early, and has to make up for what it
                -- left behind.
                obtain ⟨hmin, -⟩ :=
                  ih (htight.drop_front hc) (hothers ▸ hdivision.drop_front hc)
                    hother.tail
                simp only [List.length_cons] at hmin ⊢
                exact ⟨by omega, fun hlength => by omega⟩

end IsTight

end JobChain
