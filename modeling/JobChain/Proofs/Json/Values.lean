import JobChain.Json.Printer
import Mathlib.Tactic.SplitIfs

/-!
# Induction on values, and their text

An array is proved of from its items and an object from the values of its
fields. The text of a value does not depend on what stands behind it.
-/

namespace JobChain.Json

section

variable {motive : Json → Prop} (null : motive .null)
  (bool : ∀ value, motive (.bool value))
  (number : ∀ value, motive (.number value))
  (string : ∀ value, motive (.string value))
  (array : ∀ items, (∀ item ∈ items, motive item) → motive (.array items))
  (object : ∀ fields, (∀ field ∈ fields, motive field.2) →
    motive (.object fields))

include null bool number string array object

set_option linter.unusedSectionVars false in
mutual

/-- Induction on values, where nothing is asked of the names of fields. -/
@[elab_as_elim]
theorem induct : (value : Json) → motive value
  | .null => null
  | .bool value => bool value
  | .number value => number value
  | .string value => string value
  | .array items => array items (inductItems items)
  | .object fields => object fields (inductFields fields)

private theorem inductItems : (items : List Json) → ∀ item ∈ items, motive item
  | [] => by simp
  | item :: rest => List.forall_mem_cons.2 ⟨induct item, inductItems rest⟩

private theorem inductFields : (fields : List (String × Json)) →
    ∀ field ∈ fields, motive field.2
  | [] => by simp
  | (_, value) :: rest =>
      List.forall_mem_cons.2 ⟨induct value, inductFields rest⟩

end

end

/-! ## Text before a tail -/

private theorem escapedBefore_append (c : Char) (chars tail : List Char) :
    escapedBefore c (chars ++ tail) = escapedBefore c chars ++ tail := by
  unfold escapedBefore
  split_ifs <;> rfl

theorem quotedBefore_append (text : String) (chars tail : List Char) :
    quotedBefore text (chars ++ tail) = quotedBefore text chars ++ tail := by
  simp only [quotedBefore, List.cons_append]
  congr 1
  induction text.toList with
  | nil => rfl
  | cons c rest ih =>
      rw [List.foldr_cons, List.foldr_cons, ih, escapedBefore_append]

theorem itemsBefore_append {items : List Json}
    (hitems : ∀ item ∈ items, ∀ chars tail,
      item.charsBefore (chars ++ tail) = item.charsBefore chars ++ tail)
    (chars tail : List Char) :
    itemsBefore items (chars ++ tail) = itemsBefore items chars ++ tail := by
  induction items with
  | nil => rfl
  | cons item rest ih =>
      have hitem := hitems item List.mem_cons_self
      have hrest := ih fun other hother => hitems other (.tail _ hother)
      cases rest with
      | nil => exact hitem chars tail
      | cons next rest =>
          simp only [itemsBefore] at hrest ⊢
          rw [hrest, ← List.cons_append, hitem]

theorem fieldsBefore_append {fields : List (String × Json)}
    (hfields : ∀ field ∈ fields,
      ∀ chars tail, field.2.charsBefore (chars ++ tail) =
        field.2.charsBefore chars ++ tail)
    (chars tail : List Char) :
    fieldsBefore fields (chars ++ tail) = fieldsBefore fields chars ++
    tail := by
  induction fields with
  | nil => rfl
  | cons field rest ih =>
      have hfield := hfields field List.mem_cons_self
      have hrest := ih fun other hother => hfields other (.tail _ hother)
      cases rest with
      | nil => simp only [fieldsBefore, hfield, ← List.cons_append,
          quotedBefore_append]
      | cons next rest =>
          simp only [fieldsBefore] at hrest ⊢
          rw [hrest, ← List.cons_append, hfield, ← List.cons_append,
            quotedBefore_append]

theorem charsBefore_append (value : Json) (chars tail : List Char) :
    value.charsBefore (chars ++ tail) = value.charsBefore chars ++ tail := by
  induction value using induct generalizing chars tail with
  | null => rfl
  | bool value => cases value <;> rfl
  | number value => cases value <;> simp [charsBefore, Number.charsBefore]
  | string text => exact quotedBefore_append text chars tail
  | array items ih =>
      simp only [charsBefore, ← List.cons_append, itemsBefore_append ih]
  | object fields ih =>
      simp only [charsBefore, ← List.cons_append, fieldsBefore_append ih]

theorem charsBefore_eq (value : Json) (tail : List Char) :
    value.charsBefore tail = value.text.toList ++ tail := by
  have happend := charsBefore_append value [] tail
  simpa [text] using happend

end JobChain.Json
