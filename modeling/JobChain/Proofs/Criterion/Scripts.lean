import JobChain.Criterion
import JobChain.Proofs.Binary64.Whole
import JobChain.Proofs.Formula.Reading
import JobChain.Proofs.Store.Steps

/-!
# Criteria and formulas that say the same

A criterion about a label or a property can also be written as a formula that
compares a path with a literal. Both come to the same verdict, whatever
characters stand in the label and in the literal.
-/

namespace JobChain

/-! ## Literals -/

namespace Formula

def escaped (chars : List Char) : List Char :=
  chars.flatMap fun c => if c = '"' ∨ c = '\\' then ['\\', c] else [c]

def quoted (text : String) : List Char := '"' :: (escaped text.toList ++ ['"'])

/-- The literal that stands for a value, if the value is a text, a truth value,
null or an integer that is exact as a floating-point number. -/
def literalChars? : Json → Option (List Char)
  | .null => some "null".toList
  | .bool value => some (if value then "true" else "false").toList
  | .number (.int n _) =>
      if n.natAbs ≤ Binary64.exactBound then some (Text.intChars n) else none
  | .string text => some (quoted text)
  | _ => none

private theorem quotes_escaped (chars : List Char) :
    Quotes '"' chars (escaped chars) := by
  induction chars with
  | nil => exact .nil
  | cons c rest ih =>
      simp only [escaped, List.flatMap_cons]
      split_ifs with hspecial
      · exact .escaped ih
      · obtain ⟨hquote, hslash⟩ := not_or.1 hspecial
        exact .plain hquote hslash ih

private theorem spells_quoted (text : String) :
    (Token.literal (.string text)).Spells (quoted text) := by
  have hspells := Token.Spells.text (.inl rfl) (quotes_escaped text.toList)
  rwa [String.ofList_toList] at hspells

private theorem isNumeral_intChars (n : Int) : IsNumeral (Text.intChars n)
    (if n < 0 then ['-'] else []) (Text.natChars n.natAbs) [] where
  chars_eq := by
    rw [List.append_nil]
    cases n with
    | ofNat n => rfl
    | negSucc n => rw [if_pos (Int.negSucc_lt_zero n)]; rfl
  sign_eq := by split_ifs <;> simp
  whole_ne := Nat.toDigits_ne_nil
  isDigit_whole _ h := Text.isDigit_of_mem_natChars h
  isFraction := .inl rfl

private theorem literalOf_ofInt {n : Int} (h : n.natAbs ≤ Binary64.exactBound) :
    literalOf (Binary64.ofInt n) = .ofInt n := by
  have hbound : n.natAbs < 0x8000000000000000 :=
    Nat.lt_of_le_of_lt h (by decide)
  simp only [literalOf, Binary64.toInt?_ofInt h, if_pos hbound]

theorem spells_literalOf {n : Int} (h : n.natAbs ≤ 2 ^ 64) :
    (Token.literal (literalOf (Binary64.ofInt n))).Spells
      (Text.intChars n) := by
  have hnumeral := isNumeral_intChars n
  have hdigits : Text.digitsValue (Text.natChars n.natAbs ++ []) =
      n.natAbs := by
    rw [List.append_nil]
    exact Nat.ofDigitChars_ten_toDigits
  have hsign : (!(if n < 0 then ['-'] else []).isEmpty) = decide (n < 0) := by
    split_ifs with hneg <;> simp [hneg]
  have hvalue := hnumeral.ofText?_eq
  rw [numeralValue, List.tail_nil, hdigits, hsign, List.length_nil] at hvalue
  rw [← Binary64.ofDecimal_natAbs h]
  exact .numeral hnumeral hvalue

private theorem spells_intChars {n : Int} (h : n.natAbs ≤ Binary64.exactBound) :
    (Token.literal (.ofInt n)).Spells (Text.intChars n) := by
  rw [← literalOf_ofInt h]
  exact spells_literalOf (h.trans (by decide))

private theorem spells_of_literalChars? {value : Json} {chars : List Char}
    (h : literalChars? value = some chars) :
    (Token.literal value).Spells chars := by
  match value with
  | .null => exact .symbol h
  | .bool true | .bool false => exact .symbol h
  | .number (.int n hrange) =>
      rw [literalChars?] at h
      split_ifs at h with hbound
      obtain rfl := Option.some.inj h
      have hspells := spells_intChars hbound
      rwa [Json.ofInt, dif_pos hrange] at hspells
  | .string text =>
      obtain rfl := Option.some.inj h
      exact spells_quoted text
  | .number (.float ..) | .array _ | .object _ => cases h

/-! ## Comparisons -/

/-- Identifiers with dots between them. -/
def IsDotted (path : String) : Prop :=
  ∃ first others, IsIdent first ∧ (∀ ident ∈ others, IsIdent ident) ∧
    path.toList = dotted first others

end Formula

namespace Comparison

def symbol (comparison : Comparison) : String :=
  ((symbols.find? fun entry => entry.2 = comparison).map Prod.fst).getD ""

private theorem spells_symbol (comparison : Comparison) :
    (Formula.Token.comparison comparison).Spells comparison.symbol.toList := by
  cases comparison <;> exact .symbol rfl

private theorem equal_string (x : Json) (text : String) :
    equal x (.string text) = decide (x.toText? = some text) := by
  cases x <;> simp [equal, Json.same, Json.toText?]

end Comparison

namespace Formula

def comparedText (path : String) (comparison : Comparison)
    (literal : List Char) : String :=
  path ++ " " ++ comparison.symbol ++ " " ++ String.ofList literal

theorem ofText?_comparedText {path : String} {value : Json}
    {literal : List Char} (hpath : (Token.path path).Spells path.toList)
    (hliteral : (Token.literal value).Spells literal)
    (comparison : Comparison) : ofText? (comparedText path comparison literal) =
      some (.compare (.path path) comparison (.literal value)) := by
  have hspelled : Spelled [.path path, .comparison comparison,
      .literal value] _ :=
    .cons isSpaces_nil hpath
      (.cons isSpaces_blank comparison.spells_symbol
        (.cons isSpaces_blank hliteral .nil))
  have hderives :
      Derives .disjunction (.compare (.path path) comparison (.literal value))
        ([.path path] ++ .comparison comparison :: [.literal value]) :=
    .one (.single (.plain (.compared comparison (.path path) (.literal value))))
  exact ofText?_of_writes ⟨_, _, [], hderives, hspelled,
    isSpaces_nil, by simp [comparedText]⟩

theorem holds_compare (left right : Formula) (comparison : Comparison)
    (element : Json) : (Formula.compare left comparison right).holds element =
      comparison.holds (left.eval element) (right.eval element) := rfl

/-! ## Paths -/

private theorem IsDotted.spells_properties {key : String} (h : IsDotted key) :
    (Token.path ("properties." ++ key)).Spells ("properties." ++
      key).toList := by
  obtain ⟨first, others, hfirst, hothers, hkey⟩ := h
  have hproperties : IsIdent "properties".toList :=
    ⟨⟨'p', rfl, by decide⟩, List.all_eq_true.1 (by decide)⟩
  have hchars : ("properties." ++ key).toList =
      dotted "properties".toList (first :: others) := by
    simp [hkey, dotted]
  have hspells := Token.Spells.path hproperties (by decide)
    (List.forall_mem_cons.2 ⟨hfirst, hothers⟩)
  rwa [← hchars, String.ofList_toList] at hspells

theorem IsIdent.spells_path {name : String} (h : IsIdent name.toList)
    (hword : name.toList ∉ keywords) :
    (Token.path name).Spells name.toList := by
  have hspells := Token.Spells.path h hword (List.forall_mem_nil _)
  have hchars : dotted name.toList [] = name.toList := List.append_nil _
  rwa [hchars, String.ofList_toList] at hspells

private theorem spells_label : (Token.path "label").Spells "label".toList :=
  IsIdent.spells_path ⟨⟨'l', rfl, by decide⟩, List.all_eq_true.1 (by decide)⟩
    (by decide)

end Formula

namespace Criterion

open Formula

private theorem field?_label (element : Json) :
    Element.field? element "label" = element.field? "label" := by
  have hnames :
      (Text.splitAt (fun c => c = '.') "label".toList).map String.ofList =
        ["label"] := by
    decide
  rw [Element.field?, hnames, Json.at?]
  cases element.field? "label" <;> rfl

private theorem field?_properties (element : Json) (key : String) :
    Element.field? element ("properties." ++ key) = property? element key := by
  have hchars : ("properties." ++ key).toList = "properties".toList ++ '.' ::
      key.toList := by simp
  have hfront :
      (Text.splitAt (fun c => c = '.') "properties".toList).map String.ofList =
      ["properties"] := by decide
  rw [Element.field?, hchars, Text.splitAt_append_cons _ _ (by decide),
    List.map_append, hfront]
  rfl

def verdict (criterion : Criterion)
    (element : Json) : Except CriterionError Bool :=
  criterion.compile.map fun compiled => compiled.holds element

/-- Both criteria can be compiled and say the same about an element. -/
def Agree (element : Json) (criterion other : Criterion) : Prop :=
  ∃ verdict, criterion.verdict element = .ok verdict ∧
    other.verdict element = .ok verdict

private theorem verdict_scripted {source : String} {formula : Formula}
    (h : ofText? source = some formula) (element : Json) :
    (scripted source).verdict element = .ok (formula.holds element) := by
  simp only [verdict, compile, h]
  rfl

private theorem agree_hasLabel (element : Json) (label : String) :
    Agree element (.hasLabel label)
      (.scripted (comparedText "label" .eq (quoted label))) := by
  refine ⟨_, rfl, ?_⟩
  rw [verdict_scripted
    (ofText?_comparedText spells_label (spells_quoted label) .eq),
    holds_compare]
  simp only [Formula.eval, field?_label, Compiled.holds, Comparison.holds,
    Comparison.equal_string]
  cases element.field? "label" <;> rfl

private theorem agree_propertyCompare {element value : Json} {key : String}
    {literal : List Char} (hkey : IsDotted key)
    (hfound : (property? element key).isSome)
    (hliteral : literalChars? value = some literal) (comparison : Comparison) :
    Agree element (.propertyCompare key comparison value)
      (.scripted (comparedText ("properties." ++ key) comparison literal)) := by
  obtain ⟨found, hfound⟩ := Option.isSome_iff_exists.1 hfound
  refine ⟨_, rfl, ?_⟩
  rw [verdict_scripted (ofText?_comparedText hkey.spells_properties
    (spells_of_literalChars? hliteral) comparison), holds_compare]
  simp only [Formula.eval, field?_properties, hfound, Compiled.holds]
  rfl

/-- On every element a criterion about a label agrees with the formula that
compares the label with it as a literal. A criterion about a property that an
element has agrees with the formula that compares the property with the same
literal, for every comparison. -/
theorem scripted_agrees :
    (∀ (element : Json) (label : String),
      Agree element (.hasLabel label)
        (.scripted (comparedText "label" .eq (quoted label)))) ∧
    ∀ {element value : Json} {key : String}
      {literal : List Char} (comparison : Comparison), IsDotted key →
      (property? element key).isSome → literalChars? value = some literal →
        Agree element (.propertyCompare key comparison value)
          (.scripted (comparedText ("properties." ++ key) comparison literal)) ∧
        Agree element (.propertyEquals key value)
          (.scripted (comparedText ("properties." ++ key) .eq literal)) := by
  refine ⟨agree_hasLabel, fun comparison hkey hfound hliteral => ⟨?_, ?_⟩⟩
  · exact agree_propertyCompare hkey hfound hliteral comparison
  · exact agree_propertyCompare hkey hfound hliteral .eq

private theorem isDotted_sample : IsDotted "age.years" :=
  ⟨"age".toList, ["years".toList],
    ⟨⟨'a', rfl, by decide⟩, List.all_eq_true.1 (by decide)⟩,
    List.forall_mem_singleton.2 ⟨⟨'y', rfl, by decide⟩,
      List.all_eq_true.1 (by decide)⟩, by decide⟩

theorem scripted_agrees_nested :
    let element : Json := .ofFields [("label", .string "a\"b"),
      ("properties", .ofFields [("age", .ofFields [("years", .ofInt 30)])])]
    Agree .null (.hasLabel "a\"b") (.scripted "label == \"a\\\"b\"") ∧
      Agree element (.hasLabel "a\"b") (.scripted "label == \"a\\\"b\"") ∧
      IsDotted "age.years" ∧ (property? element "age.years").isSome ∧
      literalChars? (.ofInt (-7)) = some ['-', '7'] ∧
      Agree element (.propertyCompare "age.years" .gt (.ofInt (-7)))
        (.scripted "properties.age.years > -7") ∧
      Agree element (.propertyEquals "age.years" (.ofInt (-7)))
        (.scripted "properties.age.years == -7") := by
  intro element
  have hfound : (property? element "age.years").isSome := by decide
  have hliteral : literalChars? (.ofInt (-7)) = some ['-', '7'] := by decide
  obtain ⟨hlabel, hproperty⟩ := scripted_agrees
  exact ⟨hlabel .null _, hlabel element _, isDotted_sample, hfound, hliteral,
    hproperty .gt isDotted_sample hfound hliteral⟩

end Criterion

end JobChain
