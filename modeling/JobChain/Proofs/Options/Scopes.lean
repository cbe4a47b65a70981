import JobChain.Options
import JobChain.Proofs.Json.Numerals
import Mathlib.Data.List.Induction
import Mathlib.Data.String.Basic

/-!
# Options under scoped names

A scoped name is cut at its last dash, so it gives back the name and the step
that it was made of. Other names are cut to the same parts when zeros stand
before the digits of the step. Then the last name in the order of the map
counts: with zeros before its digits a name comes before the scoped one, unless
the step itself is zero.
-/

namespace JobChain

/-! ## Inserting many entries -/

namespace Assoc

variable {κ α : Type} [DecidableEq κ] {key : κ} {value : α}
  {entries : List (κ × α)}

def lastOf? (key : κ) (entries : List (κ × α)) : Option α :=
  (entries.filter fun entry => entry.1 = key).getLast?.map Prod.snd

private theorem lastOf?_append (front back : List (κ × α)) :
    lastOf? key (front ++ back) =
      (lastOf? key back).or (lastOf? key front) := by
  simp only [lastOf?, List.filter_append, List.getLast?_append]
  cases (back.filter fun entry => entry.1 = key).getLast? <;> rfl

theorem lastOf?_eq_none
    (h : ∀ entry ∈ entries, entry.1 ≠ key) : lastOf? key entries = none := by
  have hnone : (entries.filter fun entry => entry.1 = key) = [] :=
    List.filter_eq_nil_iff.2 fun entry hentry => by simpa using h entry hentry
  simp [lastOf?, hnone]

private theorem mem_of_lastOf?
    (h : lastOf? key entries = some value) : (key, value) ∈ entries := by
  obtain ⟨entry, hlast, rfl⟩ := Option.map_eq_some_iff.1 h
  obtain ⟨hmem, hkey⟩ := List.mem_filter.1 (List.mem_of_getLast? hlast)
  obtain rfl : entry.1 = key := of_decide_eq_true hkey
  exact hmem

theorem lastOf?_eq_some_of_unique (hmem : (key, value) ∈ entries)
    (hunique : ∀ entry ∈ entries, entry.1 = key → entry.2 = value) :
    lastOf? key entries = some value := by
  have hkept : (key, value) ∈ entries.filter fun entry => entry.1 = key :=
    List.mem_filter.2 ⟨hmem, by simp⟩
  obtain ⟨last, hlast⟩ := Option.ne_none_iff_exists'.1
    (List.getLast?_eq_none_iff.not.2 (List.ne_nil_of_mem hkept))
  obtain ⟨hin, hkey⟩ := List.mem_filter.1 (List.mem_of_getLast? hlast)
  rw [lastOf?, hlast, Option.map_some,
    hunique last hin (of_decide_eq_true hkey)]

end Assoc

namespace SortedMap

variable {κ α : Type} [Ord κ] [Std.TransOrd κ] [Std.LawfulEqOrd κ]
  [DecidableEq κ]

theorem get?_insertAll (map : SortedMap κ α) (entries : List (κ × α))
    (key : κ) :
    (map.insertAll entries).get? key =
      (Assoc.lastOf? key entries).or (map.get? key) := by
  induction entries generalizing map with
  | nil => rfl
  | cons entry rest ih =>
      change ((map.insert entry.1 entry.2).insertAll rest).get? key = _
      rw [ih, ← List.singleton_append, Assoc.lastOf?_append, get?_insert]
      by_cases hkey : entry.1 = key
      · have hlast : Assoc.lastOf? key [entry] = some entry.2 := by
          simp [Assoc.lastOf?, hkey]
        rw [hlast, if_pos hkey.symm]
        cases Assoc.lastOf? key rest <;> rfl
      · have hnone : Assoc.lastOf? key [entry] = none := by
          simp [Assoc.lastOf?, hkey]
        rw [hnone, if_neg fun heq => hkey heq.symm, Option.or_none]

end SortedMap

/-! ## Digits behind zeros -/

namespace Text

private theorem natChars_digit {c : Char} (h : c.isDigit = true) :
    natChars (Nat.ofDigitChars 10 [c] 0) = [c] ∧
    Nat.ofDigitChars 10 [c] 0 < 10 := by
  have hdigits : ∀ n < 10, natChars n = [Char.ofNat (n + 48)] := by decide
  have hbounds : 48 ≤ c.toNat ∧ c.toNat ≤ 57 := Char.isDigit_iff_toNat.1 h
  have hvalue : Nat.ofDigitChars 10 [c] 0 = c.toNat - 48 := by
    rw [Nat.ofDigitChars_cons]
    simp [show '0'.toNat = 48 from rfl]
  rw [hvalue, hdigits _ (by omega), Nat.sub_add_cancel hbounds.1,
    Char.ofNat_toNat]
  exact ⟨rfl, by omega⟩

private theorem exists_zeros {digits : List Char} (hne : digits ≠ [])
    (h : ∀ c ∈ digits, c.isDigit = true) :
    ∃ zeros, digits = List.replicate zeros '0' ++
      natChars (digitsValue digits) := by
  induction digits using List.reverseRecOn with
  | nil => exact absurd rfl hne
  | append_singleton front c ih =>
      obtain ⟨hdigit, hsmall⟩ := natChars_digit (h c (by simp))
      by_cases hfront : front = []
      · subst hfront
        exact ⟨0, hdigit.symm⟩
      obtain ⟨zeros, hzeros⟩ := ih hfront fun d hd => h d (by simp [hd])
      have hvalue : digitsValue (front ++ [c]) =
          10 * digitsValue front + Nat.ofDigitChars 10 [c] 0 := by
        simp [digitsValue, Nat.ofDigitChars_append, Nat.ofDigitChars_cons]
      rcases Nat.eq_zero_or_pos (digitsValue front) with hzero | hpos
      · refine ⟨zeros + 1, ?_⟩
        rw [hzero] at hzeros
        rw [hvalue, hzero, Nat.mul_zero, Nat.zero_add, hdigit,
          List.replicate_succ', hzeros]
        rfl
      · refine ⟨zeros, ?_⟩
        have happend :=
          Nat.toDigits_append_toDigits (by decide : 1 < 10) hpos hsmall
        change natChars _ ++ natChars _ = natChars _ at happend
        rw [hvalue, ← happend, hdigit, ← List.append_assoc, ← hzeros]

private theorem digits_of_readDigits? {digits : List Char} {n : Nat}
    (h : readDigits? digits = some n) :
    digits ≠ [] ∧ (∀ c ∈ digits, c.isDigit = true) ∧
    digitsValue digits = n := by
  simpa [readDigits?, and_assoc] using h

theorem readDigits?_eq_some_iff {digits : List Char} {n : Nat} :
    readDigits? digits = some n ↔ ∃ zeros, digits = List.replicate zeros '0' ++
    natChars n := by
  constructor
  · intro h
    obtain ⟨hne, hdigits, rfl⟩ := digits_of_readDigits? h
    exact exists_zeros hne hdigits
  · rintro ⟨zeros, rfl⟩
    have hdigits : ∀ c ∈ List.replicate zeros '0' ++ natChars n,
        c.isDigit = true := by
      intro c hc
      rcases List.mem_append.1 hc with hc | hc
      · rw [List.eq_of_mem_replicate hc]
        rfl
      · exact isDigit_of_mem_natChars hc
    have hne : (List.replicate zeros '0' ++ natChars n).isEmpty = false := by
      simp [natChars, Nat.toDigits_ne_nil]
    have hvalue : digitsValue (List.replicate zeros '0' ++ natChars n) = n := by
      rw [digitsValue, Nat.ofDigitChars_append, Nat.ofDigitChars_replicate_zero,
        Nat.mul_zero]
      exact Nat.ofDigitChars_ten_toDigits
    rw [readDigits?, hne, List.all_eq_true.2 hdigits, hvalue]
    rfl

private theorem no_dash_of_readDigits? {digits : List Char} {n : Nat}
    (h : readDigits? digits = some n) : '-' ∉ digits := by
  intro hmem
  exact absurd ((digits_of_readDigits? h).2.1 _ hmem) (by decide)

end Text

namespace Options

/-! ## Cutting names -/

private theorem splitLastDash?_eq_none {chars : List Char}
    (h : '-' ∉ chars) : splitLastDash? chars = none := by
  induction chars with
  | nil => rfl
  | cons c rest ih =>
      rw [List.mem_cons, not_or] at h
      rw [splitLastDash?, ih h.2]
      exact if_neg (Ne.symm h.1)

private theorem splitLastDash?_append (before : List Char) {behind : List Char}
    (h : '-' ∉ behind) :
    splitLastDash? (before ++ '-' :: behind) = some (before, behind) := by
  induction before with
  | nil => simp [splitLastDash?, splitLastDash?_eq_none h]
  | cons c rest ih => simp [splitLastDash?, ih]

private theorem eq_append_of_splitLastDash? {chars before behind : List Char}
    (h : splitLastDash? chars = some (before, behind)) :
    chars = before ++ '-' :: behind := by
  induction chars generalizing before behind with
  | nil => cases h
  | cons c rest ih =>
      rw [splitLastDash?] at h
      split at h
      · rename_i front back hrest
        obtain ⟨rfl, rfl⟩ := Prod.mk.inj (Option.some.inj h)
        rw [ih hrest, List.cons_append]
      · obtain ⟨rfl, h⟩ := Option.ite_none_right_eq_some.1 h
        obtain ⟨rfl, rfl⟩ := Prod.mk.inj (Option.some.inj h)
        rfl

def paddedName (name : String) (zeros step : Nat) : String :=
  String.ofList (name.toList ++ '-' ::
    (List.replicate zeros '0' ++ Text.natChars step))

theorem paddedName_zero (name : String) (step : Nat) :
    paddedName name 0 step = scopedName name step := by
  rw [← String.toList_inj]
  simp [paddedName, scopedName, Text.natText]

theorem splitLastDash?_paddedName (name : String) (zeros step : Nat) :
    splitLastDash? (paddedName name zeros step).toList =
      some (name.toList, List.replicate zeros '0' ++ Text.natChars step) := by
  rw [paddedName, String.toList_ofList]
  apply splitLastDash?_append
  exact Text.no_dash_of_readDigits? (Text.readDigits?_eq_some_iff.2
    ⟨zeros, rfl⟩)

theorem splitScope?_eq_some_iff {key name : String} {step : Nat} :
    splitScope? key = some (name, step) ↔
      step < 2 ^ 64 ∧ ∃ zeros, key = paddedName name zeros step := by
  simp only [splitScope?, Option.bind_eq_bind, Option.bind_eq_some_iff,
    Option.filter_eq_some_iff, Option.some.injEq, decide_eq_true_eq,
    Prod.exists, Prod.mk.injEq]
  constructor
  · rintro ⟨before, behind, hsplit, _, ⟨hread, hword⟩, rfl, rfl⟩
    obtain ⟨zeros, rfl⟩ := Text.readDigits?_eq_some_iff.1 hread
    refine ⟨hword, zeros, ?_⟩
    rw [← String.toList_inj, eq_append_of_splitLastDash? hsplit, paddedName,
      String.toList_ofList, String.toList_ofList]
  · rintro ⟨hword, zeros, rfl⟩
    refine ⟨_, _, splitLastDash?_paddedName name zeros step, step,
      ⟨?_, hword⟩, by simp, rfl⟩
    exact Text.readDigits?_eq_some_iff.2 ⟨zeros, rfl⟩

theorem splitScope?_paddedName (name : String) (zeros : Nat) {step : Nat}
    (h : step < 2 ^ 64) :
    splitScope? (paddedName name zeros step) = some (name, step) :=
  splitScope?_eq_some_iff.2 ⟨h, zeros, rfl⟩

theorem splitScope?_scopedName (name : String) {step : Nat}
    (h : step < 2 ^ 64) :
    splitScope? (scopedName name step) = some (name, step) := by
  rw [← paddedName_zero]
  exact splitScope?_paddedName name 0 h

theorem splitLastDash?_scopedName (name : String) (step : Nat) :
    splitLastDash? (scopedName name step).toList =
      some (name.toList, Text.natChars step) := by
  rw [← paddedName_zero]
  exact splitLastDash?_paddedName name 0 step

theorem scopedName_inj {name name' : String} {step step' : Nat} :
    scopedName name step = scopedName name' step' ↔ name = name' ∧
    step = step' := by
  refine ⟨fun h => ?_, fun ⟨hname, hstep⟩ => by rw [hname, hstep]⟩
  have hboth := splitLastDash?_scopedName name step
  rw [h, splitLastDash?_scopedName] at hboth
  obtain ⟨hname, hstep⟩ := Prod.mk.inj (Option.some.inj hboth)
  exact ⟨(String.toList_inj.1 hname).symm, (Text.natChars_injective hstep).symm⟩

/-- No name ends in a dash with nothing but digits behind it. -/
def IsUnscoped (options : Options) : Prop :=
  ∀ name before digits, options.contains name →
    name.toList = before ++ '-' :: digits →
    digits ≠ [] → ∃ c ∈ digits, ¬c.isDigit

theorem IsUnscoped.get?_eq_none {options : Options} {key : String}
    {part : String × Nat} (h : options.IsUnscoped)
    (hsplit : splitScope? key = some part) : options.get? key = none := by
  obtain ⟨name, step⟩ := part
  obtain ⟨-, zeros, rfl⟩ := splitScope?_eq_some_iff.1 hsplit
  by_contra hset
  obtain ⟨hne, hdigits, -⟩ :=
    Text.digits_of_readDigits? (Text.readDigits?_eq_some_iff.2 ⟨zeros, rfl⟩)
  obtain ⟨c, hc, hnot⟩ := h (paddedName name zeros step) name.toList
    (List.replicate zeros '0' ++ Text.natChars step)
    (Option.isSome_iff_ne_none.2 hset)
    (by rw [paddedName, String.toList_ofList]) hne
  exact hnot (hdigits c hc)

theorem isUnscoped_of_forall {options : Options}
    (h : ∀ entry ∈ options.toList, ∀ parts ∈ splitLastDash? entry.1.toList,
      parts.2 ≠ [] → parts.2.all Char.isDigit = false) :
    options.IsUnscoped := by
  intro name before digits hset hname hne
  by_contra hdigits
  push Not at hdigits
  obtain ⟨value, hvalue⟩ := Option.isSome_iff_exists.1 hset
  have hdash : '-' ∉ digits := fun hmem => absurd (hdigits _ hmem) (by decide)
  have hnot := h (name, value) (SortedMap.get?_eq_some_iff.1 hvalue)
    (before, digits) (by rw [hname, splitLastDash?_append _ hdash]; rfl) hne
  rw [List.all_eq_true.2 hdigits] at hnot
  cases hnot

/-! ## The order of padded names -/

private theorem compare_paddedName_eq_lt {name : String}
    {zeros zeros' step : Nat}
    (h : List.replicate zeros '0' ++ Text.natChars step <
      List.replicate zeros' '0' ++ Text.natChars step) :
    compare (paddedName name zeros step) (paddedName name zeros' step) =
      .lt := by
  rw [Std.LawfulLTCmp.eq_lt_iff_lt, String.lt_iff, paddedName, paddedName,
    String.toList_ofList, String.toList_ofList]
  apply List.append_left_lt
  exact List.cons_lt_cons_iff.2 (.inr ⟨rfl, h⟩)

/-- Zeros in front of digits come before them, unless the digits are a zero
themselves. -/
theorem compare_paddedName_scopedName (name : String) {zeros step : Nat}
    (hzeros : 0 < zeros) (hstep : 0 < step) :
    compare (paddedName name zeros step) (scopedName name step) = .lt := by
  rw [← paddedName_zero]
  apply compare_paddedName_eq_lt
  obtain ⟨c, rest, hdigits⟩ : ∃ c rest, Text.natChars step = c :: rest :=
    List.exists_cons_of_ne_nil Nat.toDigits_ne_nil
  have hdigit : c.isDigit = true :=
    Text.isDigit_of_mem_natChars (hdigits ▸ List.mem_cons_self)
  have hne : c ≠ '0' := by
    have hhead := Text.head_natChars hstep
    rw [hdigits] at hhead
    simpa using hhead
  have hlt : '0' < c := by
    apply Char.lt_def.2
    have hval : c.val ≠ '0'.val := fun h => hne (Char.ext h)
    have hbound : '0'.val ≤ c.val := (Char.isDigit_iff_toNat.1 hdigit).1
    exact UInt32.lt_of_le_of_ne hbound (Ne.symm hval)
  obtain ⟨more, rfl⟩ := Nat.exists_eq_add_of_lt hzeros
  rw [List.replicate_succ, List.cons_append, List.replicate_zero,
    List.nil_append]
  conv_rhs => rw [hdigits]
  exact List.cons_lt_cons_iff.2 (.inl hlt)

theorem compare_paddedName_zero (name : String) {zeros zeros' : Nat}
    (h : zeros < zeros') :
    compare (paddedName name zeros 0) (paddedName name zeros' 0) = .lt := by
  apply compare_paddedName_eq_lt
  obtain ⟨more, rfl⟩ := Nat.exists_eq_add_of_lt h
  rw [Nat.add_assoc, List.replicate_add, List.append_assoc]
  apply List.append_left_lt
  have hzero : Text.natChars 0 = ['0'] := rfl
  rw [List.replicate_succ, List.cons_append, hzero]
  refine List.cons_lt_cons_iff.2 (.inr ⟨rfl, ?_⟩)
  cases more <;> exact List.nil_lt_cons _ _

/-! ## What a stage sees -/

variable {options : Options} {key name value : String} {step : Nat}

theorem get?_shared (options : Options) (name : String) :
    options.shared.get? name = if splitScope? name = none then options.get? name
      else none := by
  rw [shared, SortedMap.get?_filter]
  cases options.get? name <;> cases splitScope? name <;> simp [Option.filter]

def owned (step : Nat) (entry : String × String) : Option (String × String) :=
  (splitScope? entry.1).bind fun part =>
    if part.2 = step then some (part.1, entry.2) else none

theorem owned_eq_some_iff {entry own : String × String} :
    owned step entry = some own ↔ splitScope? entry.1 = some (own.1, step) ∧
    own.2 = entry.2 := by
  obtain ⟨name, value⟩ := own
  simp only [owned, Option.bind_eq_some_iff, Option.ite_none_right_eq_some,
    Option.some.injEq, Prod.exists, Prod.mk.injEq]
  constructor
  · rintro ⟨_, _, hsplit, rfl, rfl, rfl⟩
    exact ⟨hsplit, rfl⟩
  · rintro ⟨hsplit, rfl⟩
    exact ⟨_, _, hsplit, rfl, rfl, rfl⟩

theorem ownOf_eq (options : Options) (step : Nat) :
    options.ownOf step = options.toList.filterMap (owned step) := by
  rw [ownOf]
  congr 1
  funext entry
  rw [owned]
  cases splitScope? entry.1 <;> rfl

private theorem get?_view (options : Options) (step : Nat) (name : String) :
    (options.view step).get? name =
      (Assoc.lastOf? name (options.ownOf step)).or (options.shared.get? name) :=
  SortedMap.get?_insertAll ..

theorem get?_view_of_none
    (h : ∀ key, splitScope? key = some (name, step) → options.get? key = none) :
    (options.view step).get? name = options.shared.get? name := by
  rw [get?_view, ownOf_eq, Assoc.lastOf?_eq_none, Option.none_or]
  rintro own hmem rfl
  obtain ⟨entry, hentry, howned⟩ := List.mem_filterMap.1 hmem
  have hnone := h entry.1 (owned_eq_some_iff.1 howned).1
  rw [SortedMap.get?_eq_some_iff.2 hentry] at hnone
  cases hnone

/-- Whatever a stage sees in place of what is shared stands under a name that is
cut to its step. -/
theorem get?_view_eq_or (options : Options) (step : Nat) (name : String) :
    (options.view step).get? name = options.shared.get? name ∨
      ∃ key value, splitScope? key = some (name, step) ∧
        options.get? key = some value ∧
        (options.view step).get? name = some value := by
  rw [get?_view, ownOf_eq]
  cases hlast : Assoc.lastOf? name (options.toList.filterMap (owned step)) with
  | none => exact .inl rfl
  | some value =>
      obtain ⟨entry, hentry, howned⟩ :=
        List.mem_filterMap.1 (Assoc.mem_of_lastOf? hlast)
      obtain ⟨hsplit, rfl⟩ := owned_eq_some_iff.1 howned
      exact .inr ⟨entry.1, entry.2, hsplit,
        SortedMap.get?_eq_some_iff.2 hentry, rfl⟩

/-- Of the names that are cut to the name and the step of a stage the last one
in order counts. -/
theorem get?_view_of_last (hkey : options.get? key = some value)
    (hsplit : splitScope? key = some (name, step))
    (hlast : ∀ other, splitScope? other = some (name, step) →
      options.get? other ≠ none → other = key ∨ compare other key = .lt) :
    (options.view step).get? name = some value := by
  obtain ⟨front, back, hlist⟩ :=
    List.append_of_mem (SortedMap.get?_eq_some_iff.1 hkey)
  have hsorted := options.sorted
  change (SortedMap.toList options).Pairwise _ at hsorted
  rw [hlist, List.pairwise_append, List.pairwise_cons] at hsorted
  obtain ⟨-, ⟨hback, -⟩, -⟩ := hsorted
  -- Behind the key only later names stand, and none of them is cut to the
  -- name and the step.
  have hnone : ∀ entry ∈ back, splitScope? entry.1 ≠ some (name, step) := by
    intro entry hentry hcut
    have hmem : entry ∈ options.toList := by simp [hlist, hentry]
    have hset : options.get? entry.1 ≠ none := by
      simp [SortedMap.get?_eq_some_iff.2 hmem]
    have hgt := hback entry hentry
    rcases hlast entry.1 hcut hset with hsame | hlt
    · simp [hsame] at hgt
    · exact absurd (Std.TransCmp.lt_trans hgt hlt) (by simp)
  have hown : owned step (key, value) = some (name, value) :=
    owned_eq_some_iff.2 ⟨hsplit, rfl⟩
  have hbehind : Assoc.lastOf? name (back.filterMap (owned step)) = none := by
    apply Assoc.lastOf?_eq_none
    rintro own hmem rfl
    obtain ⟨entry, hentry, howned⟩ := List.mem_filterMap.1 hmem
    exact hnone entry hentry (owned_eq_some_iff.1 howned).1
  rw [get?_view, ownOf_eq, hlist, List.filterMap_append,
    List.filterMap_cons_some hown, ← List.singleton_append,
    Assoc.lastOf?_append, Assoc.lastOf?_append, hbehind, Option.none_or]
  simp [Assoc.lastOf?]

end Options

end JobChain
