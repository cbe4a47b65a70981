import JobChain.Store
import Mathlib.Algebra.GroupWithZero.Nat

/-!
# Steps of paths

A path is followed by the pieces of its text that are neither empty nor a dot. A
name behind a directory adds one step to those of the directory, however its
text ends.
-/

namespace JobChain

/-! ## Cutting texts -/

namespace Text

variable {α : Type} {cut : α → Bool}

theorem splitAt_ne_nil (cut : α → Bool)
    (list : List α) : splitAt cut list ≠ [] := by
  cases list with
  | nil => simp [splitAt]
  | cons c rest =>
      cases hcut : cut c <;> cases hrest : splitAt cut rest <;>
        simp [splitAt, hcut, hrest]

theorem splitAt_eq_singleton {list : List α}
    (h : ∀ c ∈ list, cut c = false) : splitAt cut list = [list] := by
  induction list with
  | nil => rfl
  | cons c rest ih =>
      simp [splitAt, h c List.mem_cons_self,
        ih fun d hd => h d (List.mem_cons_of_mem _ hd)]

theorem splitAt_append_cons (front back : List α) {c : α} (h : cut c = true) :
    splitAt cut (front ++ c :: back) = splitAt cut front ++
    splitAt cut back := by
  induction front with
  | nil => simp [splitAt, h]
  | cons d rest ih =>
      cases hcut : cut d with
      | true => simp [splitAt, hcut, ih]
      | false =>
          obtain ⟨piece, pieces, hpieces⟩ :=
            List.exists_cons_of_ne_nil (splitAt_ne_nil cut rest)
          simp [splitAt, hcut, ih, hpieces]

/-- The bytes of all pieces, with one more for each cut at a slash. -/
theorem sum_size_splitAt (chars : List Char) :
    ((splitAt (fun c => decide (c = '/')) chars).map fun piece =>
      (String.ofList piece).utf8ByteSize + 1).sum =
        (String.ofList chars).utf8ByteSize + 1 := by
  have hcons : ∀ (c : Char) (rest : List Char),
      (String.ofList (c :: rest)).utf8ByteSize =
      (String.ofList [c]).utf8ByteSize + (String.ofList rest).utf8ByteSize := by
    intro c rest
    rw [← List.singleton_append, String.ofList_append,
      String.utf8ByteSize_append]
  induction chars with
  | nil => rfl
  | cons c rest ih =>
      by_cases hcut : c = '/'
      · have hslash : (String.ofList ['/']).utf8ByteSize = 1 := by decide
        rw [splitAt, if_pos (by simpa using hcut), List.map_cons, List.sum_cons,
          ih, hcons, hcut, hslash]
        simp only [String.ofList_nil, String.utf8ByteSize_empty]
        omega
      · obtain ⟨piece, pieces, hpieces⟩ := List.exists_cons_of_ne_nil
          (splitAt_ne_nil (fun c => decide (c = '/')) rest)
        rw [hpieces, List.map_cons, List.sum_cons] at ih
        rw [splitAt, if_neg (by simpa using hcut), hpieces]
        simp only [List.map_cons, List.sum_cons]
        rw [hcons c piece, hcons c rest]
        omega

private theorem not_cut_of_mem_splitAt {list piece : List α}
    (h : piece ∈ splitAt cut list) : ∀ c ∈ piece, cut c = false := by
  induction list generalizing piece with
  | nil => simp_all [splitAt]
  | cons d rest ih =>
      cases hcut : cut d with
      | true =>
          rw [splitAt, if_pos hcut] at h
          rcases List.mem_cons.1 h with rfl | h
          · simp
          · exact ih h
      | false =>
          obtain ⟨first, others, hpieces⟩ :=
            List.exists_cons_of_ne_nil (splitAt_ne_nil cut rest)
          rw [splitAt, if_neg (by simp [hcut]), hpieces] at h
          rcases List.mem_cons.1 h with rfl | h
          · intro c hc
            rcases List.mem_cons.1 hc with rfl | hc
            · exact hcut
            · exact ih (hpieces ▸ List.mem_cons_self) c hc
          · exact ih (hpieces ▸ List.mem_cons_of_mem _ h)

private theorem mem_of_mem_splitAt {list piece : List α}
    (h : piece ∈ splitAt cut list) {c : α} (hc : c ∈ piece) : c ∈ list := by
  induction list generalizing piece with
  | nil => simp_all [splitAt]
  | cons d rest ih =>
      cases hcut : cut d with
      | true =>
          rw [splitAt, if_pos hcut] at h
          rcases List.mem_cons.1 h with rfl | h
          · cases hc
          · exact List.mem_cons_of_mem _ (ih h hc)
      | false =>
          obtain ⟨first, others, hpieces⟩ :=
            List.exists_cons_of_ne_nil (splitAt_ne_nil cut rest)
          rw [splitAt, if_neg (by simp [hcut]), hpieces] at h
          rcases List.mem_cons.1 h with rfl | h
          · rcases List.mem_cons.1 hc with rfl | hc
            · exact List.mem_cons_self
            · exact List.mem_cons_of_mem _
                (ih (hpieces ▸ List.mem_cons_self) hc)
          · exact List.mem_cons_of_mem _
              (ih (hpieces ▸ List.mem_cons_of_mem _ h) hc)

private theorem exists_mem_splitAt (cut : α → Bool) {list : List α} {c : α}
    (h : c ∈ list) (hcut : cut c = false) : ∃ piece ∈ splitAt cut list,
    c ∈ piece := by
  induction list with
  | nil => cases h
  | cons d rest ih =>
      cases hd : cut d with
      | true =>
          have hrest : c ∈ rest :=
            (List.mem_cons.1 h).resolve_left fun heq => by simp_all
          obtain ⟨piece, hpiece, hmem⟩ := ih hrest
          exact ⟨piece, by simp [splitAt, hd, hpiece], hmem⟩
      | false =>
          obtain ⟨first, others, hpieces⟩ :=
            List.exists_cons_of_ne_nil (splitAt_ne_nil cut rest)
          rw [splitAt, if_neg (by simp [hd]), hpieces]
          rcases List.mem_cons.1 h with rfl | hrest
          · exact ⟨_, List.mem_cons_self, List.mem_cons_self⟩
          · obtain ⟨piece, hpiece, hmem⟩ := ih hrest
            rw [hpieces] at hpiece
            rcases List.mem_cons.1 hpiece with rfl | hpiece
            · exact ⟨_, List.mem_cons_self, List.mem_cons_of_mem _ hmem⟩
            · exact ⟨piece, List.mem_cons_of_mem _ hpiece, hmem⟩

end Text

/-! ## Names -/

/-- A text that can name something in a directory. -/
structure IsName (name : String) : Prop where
  ne_empty : name ≠ ""
  ne_current : name ≠ "."
  ne_parent : name ≠ ".."
  no_slash : '/' ∉ name.toList
  no_nul : '\x00' ∉ name.toList
  short : name.utf8ByteSize ≤ Store.nameLimit

instance : DecidablePred IsName := fun name =>
  decidable_of_iff (name ≠ "" ∧ name ≠ "." ∧ name ≠ ".." ∧ '/' ∉ name.toList ∧
      '\x00' ∉ name.toList ∧ name.utf8ByteSize ≤ Store.nameLimit)
    ⟨fun ⟨hne, hcurrent, hparent, hslash, hnul, hshort⟩ =>
        ⟨hne, hcurrent, hparent, hslash, hnul, hshort⟩,
      fun h => ⟨h.ne_empty, h.ne_current, h.ne_parent, h.no_slash, h.no_nul,
        h.short⟩⟩

namespace Path

def isStep (piece : String) : Bool := piece ≠ "" && piece ≠ "."

/-- The pieces of a path that lead from one directory to another. -/
def steps (path : Path) : List String := path.pieces.filter isStep

theorem steps_of_empty {path : Path}
    (h : path.text = "") : path.steps = [] := by
  simp [steps, pieces, h, Text.splitAt, isStep]

theorem isStep_name {name : String} (h : IsName name) : isStep name = true := by
  simp [isStep, h.ne_empty, h.ne_current]

theorem pieces_of_no_slash {name : String}
    (h : '/' ∉ name.toList) : Path.pieces ⟨name⟩ = [name] := by
  have hsplit : Text.splitAt (fun c => c = '/') name.toList = [name.toList] :=
    Text.splitAt_eq_singleton fun c hc => by
      simpa using fun heq : c = '/' => h (heq ▸ hc)
  simp [pieces, hsplit]

theorem pieces_slash (front back : String) :
    Path.pieces ⟨front ++ "/" ++ back⟩ = Path.pieces ⟨front⟩ ++
    Path.pieces ⟨back⟩ := by
  have hsplit :
      Text.splitAt (fun c => decide (c = '/')) (front.toList ++ '/' ::
        back.toList) = _ :=
    Text.splitAt_append_cons front.toList back.toList rfl
  simp [pieces, hsplit]

theorem no_slash_of_mem_pieces {path : Path} {piece : String}
    (h : piece ∈ path.pieces) : '/' ∉ piece.toList := by
  obtain ⟨chars, hchars, rfl⟩ := List.mem_map.1 h
  intro hmem
  rw [String.toList_ofList] at hmem
  simpa using Text.not_cut_of_mem_splitAt hchars '/' hmem

theorem mem_of_mem_pieces {path : Path} {piece : String}
    (h : piece ∈ path.pieces) {c : Char}
    (hc : c ∈ piece.toList) : c ∈ path.text.toList := by
  obtain ⟨chars, hchars, rfl⟩ := List.mem_map.1 h
  rw [String.toList_ofList] at hc
  exact Text.mem_of_mem_splitAt hchars hc

theorem exists_mem_pieces {path : Path} {c : Char} (h : c ∈ path.text.toList)
    (hne : c ≠ '/') : ∃ piece ∈ path.pieces, c ∈ piece.toList := by
  obtain ⟨piece, hpiece, hmem⟩ :=
    Text.exists_mem_splitAt (fun c => decide (c = '/')) h (decide_eq_false hne)
  exact ⟨String.ofList piece, List.mem_map_of_mem hpiece, by simpa using hmem⟩

theorem sum_size_pieces (path : Path) :
    (path.pieces.map fun piece => piece.utf8ByteSize + 1).sum =
      path.text.utf8ByteSize + 1 := by
  rw [pieces, List.map_map]
  exact (Text.sum_size_splitAt path.text.toList).trans
    (by rw [String.ofList_toList])

theorem isAbsolute_of_no_slash {name : String} (h : '/' ∉ name.toList) :
    Path.isAbsolute ⟨name⟩ = false := by
  cases hchars : name.toList with
  | nil => simp [isAbsolute, hchars]
  | cons c rest =>
      have hne : c ≠ '/' := fun heq => h (by simp [hchars, heq])
      simp [isAbsolute, hchars, hne]

theorem head?_pieces_of_isAbsolute {path : Path}
    (h : path.isAbsolute = true) : path.pieces.head? = some "" := by
  have hhead : path.text.toList.head? = some '/' := by
    simpa [isAbsolute] using h
  obtain ⟨rest, hchars⟩ := List.head?_eq_some_iff.1 hhead
  simp [pieces, hchars, Text.splitAt]

def front (base : Path) : String :=
  if base.text = "" then ""
  else if base.text.toList.getLast? = some '/' then base.text
  else base.text ++ "/"

theorem text_child (base : Path) {name : String} (h : '/' ∉ name.toList) :
    (base.child name).text = base.front ++ name := by
  rw [child, join, isAbsolute_of_no_slash h, front]
  by_cases hempty : base.text = ""
  · simp [hempty]
  · by_cases hslash : base.text.toList.getLast? = some '/' <;>
        simp [hempty, hslash]

/-- Apart from the empty path there is a slash in front of the names in a
directory, and at most that slash stands behind the text in front of it. -/
theorem exists_front {base : Path} (h : base.text ≠ "") :
    ∃ text, base.front = text ++ "/" ∧
      (base.text = text ∨ base.text = text ++ "/") := by
  by_cases hslash : base.text.toList.getLast? = some '/'
  · obtain ⟨chars, hchars⟩ := List.getLast?_eq_some_iff.1 hslash
    have htext : base.text = String.ofList chars ++ "/" := by
      rw [← String.toList_inj]
      simp [hchars]
    exact ⟨String.ofList
      chars, by rw [front, if_neg h, if_pos hslash, htext], .inr htext⟩
  · exact ⟨base.text, by rw [front, if_neg h, if_neg hslash], .inl rfl⟩

theorem pieces_slash_end (text : String) :
    Path.pieces ⟨text ++ "/"⟩ = Path.pieces ⟨text⟩ ++ [""] := by
  have hpieces := pieces_slash text ""
  rwa [String.append_empty] at hpieces

theorem front_eq (base : Path) :
    (base.front = "" ∧ base.text = "") ∨
      ∃ text, base.front = text ++ "/" ∧ (Path.pieces ⟨text⟩).filter isStep =
        base.steps ∧ base.text.toList.head? = (text ++ "/").toList.head? := by
  by_cases hempty : base.text = ""
  · exact .inl ⟨by simp [front, hempty], hempty⟩
  · refine .inr ?_
    obtain ⟨text, hfront, htext | htext⟩ := exists_front hempty
    · refine ⟨text, hfront, by rw [← htext, steps], ?_⟩
      obtain ⟨c, rest, hchars⟩ := List.exists_cons_of_ne_nil
        (by simpa using hempty :
        base.text.toList ≠ [])
      simp [← htext, hchars]
    · have hpieces : base.pieces = Path.pieces ⟨text⟩ ++ [""] := by
        rw [← pieces_slash_end, ← htext]
      exact ⟨text, hfront, by simp [steps, hpieces, isStep], by rw [htext]⟩

theorem front_ne_empty {base : Path}
    (h : base.text ≠ "") : base.front ≠ "" := by
  rcases base.front_eq with ⟨-, hempty⟩ | ⟨text, hfront, -⟩
  · exact absurd hempty h
  · simp [hfront]

theorem mem_of_mem_front {base : Path} {c : Char} (h : c ∈ base.front.toList)
    (hne : c ≠ '/') : c ∈ base.text.toList := by
  unfold front at h
  split at h
  · simp at h
  · split at h
    · exact h
    · simpa [hne] using h

theorem isAbsolute_child (base : Path) {name : String} (h : '/' ∉ name.toList) :
    (base.child name).isAbsolute = base.isAbsolute := by
  rcases base.front_eq with ⟨hfront, hempty⟩ | ⟨text, hfront, -, hhead⟩
  · have hname := isAbsolute_of_no_slash h
    simp only [isAbsolute, text_child base h, hfront, hempty,
      String.empty_append] at hname ⊢
    simpa using hname
  · obtain ⟨c, rest, hchars⟩ :=
      List.exists_cons_of_ne_nil (by simp : (text ++ "/").toList ≠ [])
    rw [isAbsolute, isAbsolute, text_child base h, hfront, hhead,
      String.toList_append, hchars]
    rfl

theorem pieces_child (base : Path) :
    ∃ before : List String, before.filter isStep = base.steps ∧
      ∀ name : String, '/' ∉ name.toList → (base.child name).pieces = before ++
        [name] := by
  rcases base.front_eq with ⟨hfront, hempty⟩ | ⟨text, hfront, hsteps, -⟩
  · refine ⟨[], ?_, fun name hname => ?_⟩
    · simp [steps_of_empty hempty]
    · have hchild : base.child name = ⟨name⟩ := by
        rw [Path.mk.injEq, text_child base hname, hfront, String.empty_append]
      rw [hchild, pieces_of_no_slash hname, List.nil_append]
  · refine ⟨Path.pieces ⟨text⟩, hsteps, fun name hname => ?_⟩
    have hchild : base.child name = ⟨text ++ "/" ++ name⟩ := by
      rw [Path.mk.injEq, text_child base hname, hfront]
    rw [hchild, pieces_slash, pieces_of_no_slash hname]

theorem steps_child (base : Path) {name : String} (h : '/' ∉ name.toList) :
    (base.child name).steps = base.steps ++ [name].filter isStep := by
  obtain ⟨before, hbefore, hpieces⟩ := base.pieces_child
  rw [steps, hpieces name h, List.filter_append, hbefore]

/-! ## Order in a directory -/

theorem components_child (base : Path) :
    ∃ outer, ∀ name, IsName name → (base.child name).components = outer ++
      [.normal name] := by
  obtain ⟨before, -, hpieces⟩ := base.pieces_child
  refine ⟨(if base.isAbsolute then [.root] else
    if before.head? = some "." then [.current] else []) ++
    before.filterMap component?, fun name h => ?_⟩
  have hcomponent : component? name = some (.normal name) := by
    simp [component?, h.ne_empty, h.ne_current, h.ne_parent]
  rw [components, isAbsolute_child base h.no_slash, hpieces name h.no_slash,
    List.filterMap_append, ← List.append_assoc]
  cases before <;> simp [h.ne_current, hcomponent]

private theorem orderComponents_append (outer xs ys : List Component) :
    orderComponents (outer ++ xs) (outer ++ ys) = orderComponents xs ys := by
  induction outer with
  | nil => rfl
  | cons component rest ih =>
      have hself : orderComponent component component = .eq := by
        cases component <;> simp [orderComponent]
      simp [orderComponents, hself, ih]

theorem order_child (base : Path) {name name' : String} (h : IsName name)
    (h' : IsName name') :
    (base.child name).order (base.child name') = compare name name' := by
  obtain ⟨outer, houter⟩ := base.components_child
  rw [order, houter name h, houter name' h', orderComponents_append]
  simp [orderComponents, orderComponent]

end Path

end JobChain
