import JobChain.Proofs.Store.Enclosing
import JobChain.Proofs.Store.Files

/-!
# Stores that share a part

Work on a store whose paths keep to a part of it depends on that part alone, and
changes nothing else. So the same work on two stores with that part in common
succeeds on both or fails of the same, and they have it in common again
afterwards, except for the contents of files that may differ.
-/

namespace JobChain

/-! ## Work on two stores -/

section

variable {ε σ α β γ δ : Type}

/-- Both are refused for the same reason, or both are answered and the answers
are related. -/
inductive Matches (like : α → β → Prop) : Except ε α → Except ε β → Prop where
  | ok {answer : α} {answer' : β} (h : like answer answer') :
      Matches like (.ok answer) (.ok answer')
  | error (error : ε) : Matches like (.error error) (.error error)

theorem Matches.bind {like : γ → δ → Prop} {result : Except ε α}
    {next : α → Except ε γ} {next' : α → Except ε δ}
    (h : ∀ answer, result = .ok answer →
      Matches like (next answer) (next' answer)) :
    Matches like (result >>= next) (result >>= next') := by
  cases result with
  | ok answer => exact h answer rfl
  | error error => exact .error error

theorem Matches.imp {like' : α → β → Prop} {result : Except ε α}
    {result' : Except ε β} (h : Matches like result result')
    (himp : ∀ answer answer', like answer answer' →
      like' answer answer') : Matches like' result result' := by
  cases h with
  | ok hlike => exact .ok (himp _ _ hlike)
  | error error => exact .error error

theorem Matches.mapError {ε ε' α β : Type} {like : α → β → Prop}
    {result : Except ε α} {result' : Except ε β}
    (h : Matches like result result') (failure : ε → ε') :
    Matches like (result.mapError failure) (result'.mapError failure) := by
  cases h with
  | ok hlike => exact .ok hlike
  | error error => exact .error (failure error)

/-- What two pieces of work come to: their answers match, and so do the stores
that they leave. -/
structure Together (near : σ → σ → Prop) (like : α → β → Prop)
    (result : Except ε α × σ) (result' : Except ε β × σ) : Prop where
  answers : Matches like result.1 result'.1
  stores : near result.2 result'.2

namespace Together

variable {near : σ → σ → Prop} {like : α → β → Prop} {like' : γ → δ → Prop}
  {work : ExceptT ε (StateM σ) α} {work' : ExceptT ε (StateM σ) β}
  {store store' : σ}

theorem imp {near' : σ → σ → Prop} {result : Except ε α × σ}
    {result' : Except ε β × σ} (h : Together near like result result')
    (himp : ∀ store store', near store store' →
      near' store store') : Together near' like result result' :=
  ⟨h.answers, himp _ _ h.stores⟩

theorem pure {answer : α} {answer' : β} (hanswers : like answer answer')
    (hstores : near store store') :
    Together near like (outcome (pure answer : ExceptT ε (StateM σ) α) store)
      (outcome (pure answer' : ExceptT ε (StateM σ) β) store') :=
  ⟨.ok hanswers, hstores⟩

theorem bind {next : α → ExceptT ε (StateM σ) γ}
    {next' : β → ExceptT ε (StateM σ) δ}
    (h : Together near like (outcome work store) (outcome work' store'))
    (hnext : ∀ answer answer' between between', like answer answer' →
      near between between' →
      Together near like' (outcome (next answer) between)
        (outcome (next' answer') between')) :
    Together near like' (outcome (work >>= next) store)
      (outcome (work' >>= next') store') := by
  rw [outcome_bind, outcome_bind]
  generalize outcome work store = result at h
  generalize outcome work' store' = result' at h
  obtain ⟨answer, between⟩ := result
  obtain ⟨answer', between'⟩ := result'
  obtain ⟨hanswers, hstores⟩ := h
  cases hanswers with
  | ok hlike => exact hnext _ _ _ _ hlike hstores
  | error error => exact ⟨.error error, hstores⟩

theorem exists_succeeds
    (h : Together near like (outcome work store) (outcome work' store'))
    {answer' : β} {after' : σ}
    (hsucceeds : Succeeds work' store' answer' after') :
    ∃ answer after, Succeeds work store answer after ∧ like answer answer' ∧
      near after after' := by
  unfold Succeeds at hsucceeds ⊢
  rw [hsucceeds] at h
  generalize outcome work store = result at h
  obtain ⟨answer, after⟩ := result
  obtain ⟨hanswers, hstores⟩ := h
  cases hanswers with
  | ok hlike => exact ⟨_, after, rfl, hlike, hstores⟩

end Together

end

namespace Store

open Path (isStep)

/-! ## Places on a way -/

theorem mem_walkFrom_append {place passed : Place}
    {steps steps' : List String} : passed ∈ walkFrom place (steps ++ steps') ↔
      passed ∈ walkFrom place steps ∨
      passed ∈ walkFrom (placeFrom place steps) steps' := by
  induction steps generalizing place with
  | nil =>
      simp only [List.nil_append, walkFrom, placeFrom_nil, List.mem_singleton,
        iff_or_self]
      rintro rfl
      exact mem_walkFrom_self _ _
  | cons step rest ih =>
      simp only [List.cons_append, walkFrom, placeFrom_cons, List.mem_cons, ih,
        or_assoc]

theorem mem_walkFrom_append_left {place passed : Place} {steps : List String}
    (h : passed ∈ walkFrom place steps) (steps' : List String) :
    passed ∈ walkFrom place (steps ++ steps') := mem_walkFrom_append.2 (.inl h)

private theorem mem_walkFrom_append_right {place passed : Place}
    {steps' : List String} (steps : List String)
    (h : passed ∈ walkFrom (placeFrom place steps) steps') :
    passed ∈ walkFrom place (steps ++ steps') := mem_walkFrom_append.2 (.inr h)

/-! ## The shared part -/

/-- A part that two stores share, and what is fixed outside of it in the one and
in the other. -/
structure Scope where
  here : Place
  shared : Place → Prop
  outside : Place → Option Node
  outside' : Place → Option Node

namespace Scope

def Admits (scope : Scope) (place : Place) : Prop :=
  scope.shared place ∨
    scope.outside place = some .directory ∧
    scope.outside' place = some .directory

def Covers (scope : Scope) (path : Path) : Prop :=
  ∀ passed ∈ walkFrom (startOf scope.here path) path.steps, scope.Admits passed

/-- A path that ends at a shared place, with everything below it. -/
def Holds (scope : Scope) (path : Path) : Prop :=
  ∀ place, placeOf scope.here path <+: place → scope.shared place

variable {scope : Scope} {path outer : Path}

private theorem ne_of_shared {place passed : Place}
    (hshared : scope.shared place) (hpassed : ¬scope.shared passed) :
    passed ≠ place := fun heq => hpassed (heq ▸ hshared)

private theorem Covers.of_prefix (h : scope.Covers path)
    (habsolute : outer.isAbsolute = path.isAbsolute)
    (hsteps : outer.steps <+: path.steps) : scope.Covers outer := by
  obtain ⟨rest, hrest⟩ := hsteps
  intro passed hpassed
  rw [startOf, habsolute] at hpassed
  refine h passed ?_
  rw [← hrest]
  exact mem_walkFrom_append_left hpassed rest

theorem Covers.admits (h : scope.Covers path) :
    scope.Admits (placeOf scope.here path) :=
  h _ (placeFrom_mem_walkFrom _ _)

theorem Holds.admits (h : scope.Holds path) {place : Place}
    (hbelow : placeOf scope.here path <+: place) : scope.Admits place :=
  .inl (h place hbelow)

section Child

variable {name : String} (hslash : '/' ∉ name.toList)
  (hstep : isStep name = true) (hparent : name ≠ "..")

include hslash hstep hparent

theorem Covers.child (h : scope.Covers path)
    (hholds : scope.Holds (path.child name)) :
    scope.Covers (path.child name) := by
  intro passed hpassed
  rw [startOf, Path.isAbsolute_child path hslash, Path.steps_child path hslash,
    List.filter_cons_of_pos hstep, List.filter_nil, walkFrom_concat,
    List.mem_append, List.mem_singleton] at hpassed
  rcases hpassed with hpassed | rfl
  · exact h passed hpassed
  · have hadmits := hholds.admits (List.prefix_refl _)
    rw [placeOf_child path hslash hstep hparent] at hadmits
    rw [stepFrom, if_neg hparent]
    exact hadmits

theorem Holds.child (h : scope.Holds path) : scope.Holds (path.child name) := by
  intro place hbelow
  rw [placeOf_child path hslash hstep hparent] at hbelow
  exact h place ((List.prefix_append ..).trans hbelow)

end Child

end Scope

/-- Two stores that share the part of a scope, but for the contents of some
files, and hold what is fixed outside of it. -/
structure Shares (scope : Scope) (differ : Place → Content → Content → Prop)
    (store other : Store) : Prop where
  here_eq : store.here = scope.here
  here_eq' : other.here = scope.here
  node : ∀ place, scope.shared place → other.node? place = store.node? place ∨
    ∃ content content', store.node? place = some (.file content) ∧
      other.node? place = some (.file content') ∧ differ place content content'
  kept : ∀ place, ¬scope.shared place → store.node? place = scope.outside place
  kept' : ∀ place, ¬scope.shared place →
      other.node? place = scope.outside' place

namespace Shares

variable {scope : Scope} {differ : Place → Content → Content → Prop}
  {store other : Store}

theorem mono {differ' : Place → Content → Content → Prop}
    (h : Shares scope differ store other)
    (hdiffer : ∀ place content content', differ place content content' →
      differ' place content content') : Shares scope differ' store other where
  here_eq := h.here_eq
  here_eq' := h.here_eq'
  node place hshared := (h.node place hshared).imp id
    fun ⟨content, content', hfile, hfile', hone⟩ =>
      ⟨content, content', hfile, hfile', hdiffer place content content' hone⟩
  kept := h.kept
  kept' := h.kept'

private theorem admitted (h : Shares scope differ store other) {place : Place}
    (hadmits : scope.Admits place) : other.node? place = store.node? place ∨
      ∃ content content', store.node? place = some (.file content) ∧
        other.node? place = some (.file content') ∧
        differ place content content' := by
  by_cases hshared : scope.shared place
  · exact h.node place hshared
  · obtain ⟨houtside, houtside'⟩ := hadmits.resolve_left hshared
    exact .inl
      (by rw [h.kept place hshared, h.kept' place hshared, houtside, houtside'])

theorem directory_iff (h : Shares scope differ store other) {place : Place}
    (hadmits : scope.Admits place) :
    other.node? place = some .directory ↔
    store.node? place = some .directory := by
  rcases h.admitted hadmits with heq | ⟨_, _, hfile, hfile', -⟩
  · rw [heq]
  · simp [hfile, hfile']

theorem none_iff (h : Shares scope differ store other) {place : Place}
    (hadmits : scope.Admits place) : other.node? place = none ↔
    store.node? place = none := by
  rcases h.admitted hadmits with heq | ⟨_, _, hfile, hfile', -⟩
  · rw [heq]
  · simp [hfile, hfile']

private theorem shared_of_ne (h : Shares scope differ store other)
    {place : Place} (hadmits : scope.Admits place)
    (hne : store.node? place ≠ some .directory) : scope.shared place := by
  by_contra hshared
  exact hne ((h.kept place hshared).trans (hadmits.resolve_left hshared).1)

/-! ## Following paths -/

private theorem enter_eq (h : Shares scope differ store other) {place : Place}
    {pieces : List String}
    (hway : ∀ passed ∈ walkFrom place (pieces.filter isStep),
      scope.Admits passed) :
    other.enter place pieces = store.enter place pieces := by
  have hcheck : ∀ place, scope.Admits place →
      enter.check other place = enter.check store place := by
    intro place hadmits
    unfold enter.check
    rcases h.admitted hadmits with heq | ⟨_, _, hfile, hfile', -⟩
    · rw [heq]
    · rw [hfile, hfile']
  induction pieces generalizing place with
  | nil => exact hcheck place (hway place (mem_walkFrom_self _ _))
  | cons piece rest ih =>
      rw [enter, enter, hcheck place (hway place (mem_walkFrom_self _ _))]
      cases hchecked : enter.check store place with
      | error error => rfl
      | ok found =>
          obtain rfl : found = place := by
            unfold enter.check at hchecked
            split at hchecked <;> simp_all
          change (descend found piece >>= fun next => other.enter next rest) =
            descend found piece >>= fun next => store.enter next rest
          cases hdescend : descend found piece with
          | error error => rfl
          | ok next =>
              obtain ⟨-, rfl⟩ := descend_eq_ok_iff.1 hdescend
              refine ih fun passed hpassed => hway passed ?_
              have hmem := mem_walkFrom_append_right _ hpassed
              rwa [← List.filter_append] at hmem

private theorem enterRoute_eq (h : Shares scope differ store other)
    {path : Path} (hcovers : scope.Covers path) :
    other.enterRoute path = store.enterRoute path := by
  have henter : other.enter (startOf scope.here path) (routeOf path).before =
      store.enter (startOf scope.here path) (routeOf path).before := by
    refine h.enter_eq fun passed hpassed => hcovers passed ?_
    rw [← steps_routeOf]
    exact mem_walkFrom_append_left hpassed _
  unfold startOf at henter
  simp only [enterRoute, h.here_eq, h.here_eq', henter]

theorem placeOf_eq (h : Shares scope differ store other) {path : Path}
    {before place : Place} (henter : store.enterRoute path = .ok before)
    (hdescend : descend before (routeOf path).last = .ok place) :
    place = placeOf scope.here path := by
  obtain ⟨-, -, rfl⟩ := enterRoute_eq_ok_iff.1 henter
  obtain ⟨-, rfl⟩ := descend_eq_ok_iff.1 hdescend
  rw [← placeFrom_append, steps_routeOf, h.here_eq]
  rfl

theorem find (h : Shares scope differ store other) {path : Path}
    (hcovers : scope.Covers path) :
    Matches (fun found found' => found.1 = found'.1 ∧
      store.node? found.1 = some found.2 ∧
      other.node? found.1 = some found'.2) (store.find path)
        (other.find path) := by
  unfold Store.find
  rw [h.enterRoute_eq hcovers]
  refine Matches.bind fun before henter => Matches.bind fun place hdescend => ?_
  obtain rfl := h.placeOf_eq henter hdescend
  rcases h.admitted hcovers.admits with heq | ⟨content, content', hfile,
    hfile', -⟩
  · rw [heq]
    rcases hnode : store.node? (placeOf scope.here path) with _ | ⟨content⟩ | _
    · exact .error _
    · dsimp only
      split
      · exact .error _
      · exact .ok ⟨rfl, hnode, heq.trans hnode⟩
    · exact .ok ⟨rfl, hnode, heq.trans hnode⟩
  · rw [hfile, hfile']
    dsimp only
    split
    · exact .error _
    · exact .ok ⟨rfl, hfile, hfile'⟩

theorem has_eq (h : Shares scope differ store other) {path : Path}
    (hcovers : scope.Covers path) : other.has path = store.has path := by
  have hfind := h.find hcovers
  unfold has
  generalize store.find path = result at hfind
  generalize other.find path = result' at hfind
  cases hfind <;> rfl

theorem kind_eq (h : Shares scope differ store other) {path : Path}
    (hcovers : scope.Covers path) :
    other.isDirectory path = store.isDirectory path ∧
    other.isFile path = store.isFile path := by
  have hfind := h.find hcovers
  unfold isDirectory isFile
  generalize hresult : store.find path = result at hfind
  generalize other.find path = result' at hfind
  cases hfind with
  | error error => exact ⟨rfl, rfl⟩
  | @ok found found' hfound =>
      obtain ⟨place, node⟩ := found
      obtain ⟨_, node'⟩ := found'
      obtain ⟨rfl, hnode, hnode'⟩ := hfound
      obtain ⟨hplace, -⟩ := find_eq_ok hresult
      rw [h.here_eq] at hplace
      have hkind := h.directory_iff (hplace ▸ hcovers.admits)
      rw [hnode, hnode'] at hkind
      cases node <;> cases node' <;> simp_all

theorem read (h : Shares scope differ store other) {path : Path}
    (hcovers : scope.Covers path) :
    Matches (fun content content' => content' = content ∨
      differ (placeOf scope.here path) content content') (store.read path)
        (other.read path) := by
  have hfind := h.find hcovers
  unfold Store.read
  generalize hresult : store.find path = result at hfind
  generalize other.find path = result' at hfind
  cases hfind with
  | error error => exact .error error
  | @ok found found' hfound =>
      obtain ⟨place, node⟩ := found
      obtain ⟨_, node'⟩ := found'
      obtain ⟨rfl, hnode, hnode'⟩ := hfound
      obtain ⟨hplace, -⟩ := find_eq_ok hresult
      rw [h.here_eq] at hplace
      subst hplace
      rcases h.admitted hcovers.admits with heq | ⟨content, content', hfile,
        hfile', hdiffer⟩
      · obtain rfl : node' = node :=
          Option.some.inj (hnode'.symm.trans (heq.trans hnode))
        cases node' with
        | directory => exact .error _
        | file content => exact .ok (.inl rfl)
      · obtain rfl : node = .file content :=
          Option.some.inj (hnode.symm.trans hfile)
        obtain rfl : node' = .file content' :=
          Option.some.inj (hnode'.symm.trans hfile')
        exact .ok (.inr hdiffer)

theorem namesIn_eq (h : Shares scope differ store other) {place : Place}
    (hinner : ∀ name, scope.Admits (place ++ [name])) :
    other.namesIn place = store.namesIn place := by
  have hperm : (other.namesIn place).Perm (store.namesIn place) := by
    refine (List.perm_ext_iff_of_nodup (nodup_namesIn _ _)
      (nodup_namesIn _ _)).2 fun name => ?_
    have hnone := h.none_iff (hinner name)
    rw [mem_namesIn, mem_namesIn, Option.isSome_iff_ne_none,
      Option.isSome_iff_ne_none, Ne, Ne, hnone]
  refine hperm.eq_of_pairwise ?_ (sorted_namesIn _ _) (sorted_namesIn _ _)
  intro name name' _ _ hlt hlt'
  exact absurd (Std.TransCmp.lt_trans hlt hlt') (by simp)

theorem names_eq (h : Shares scope differ store other) {path : Path}
    (hcovers : scope.Covers path)
    (hinner : ∀ name, scope.Admits (placeOf scope.here path ++ [name])) :
    other.names path = store.names path := by
  have hfind := h.find hcovers
  unfold names
  generalize hresult : store.find path = result at hfind
  generalize other.find path = result' at hfind
  cases hfind with
  | error error => rfl
  | @ok found found' hfound =>
      obtain ⟨place, node⟩ := found
      obtain ⟨_, node'⟩ := found'
      obtain ⟨rfl, hnode, hnode'⟩ := hfound
      obtain ⟨hplace, -⟩ := find_eq_ok hresult
      rw [h.here_eq] at hplace
      subst hplace
      have hkind := h.directory_iff hcovers.admits
      rw [hnode, hnode'] at hkind
      match node, node' with
      | .file content, .file content' => rfl
      | .file content, .directory => simp at hkind
      | .directory, .file content => simp at hkind
      | .directory, .directory =>
          change Except.ok (other.namesIn _) = Except.ok (store.namesIn _)
          rw [h.namesIn_eq hinner]

/-! ## Changes -/

theorem put (h : Shares scope differ store other) {place : Place}
    (hne : place ≠ []) (hshared : scope.shared place) {node node' : Node}
    (hnode : node' = node ∨
      ∃ content content', node = .file content ∧ node' = .file content' ∧
        differ place content content') :
    Shares scope differ (store.put place node) (other.put place node') where
  here_eq := h.here_eq
  here_eq' := h.here_eq'
  node passed hpassed := by
    rw [node?_put _ _ _ _ hne, node?_put _ _ _ _ hne]
    by_cases heq : passed = place
    · subst heq
      rw [if_pos rfl, if_pos rfl]
      rcases hnode with rfl | ⟨content, content', rfl, rfl, hdiffer⟩
      · exact .inl rfl
      · exact .inr ⟨content, content', rfl, rfl, hdiffer⟩
    · rw [if_neg heq, if_neg heq]
      exact h.node passed hpassed
  kept passed hpassed := by
    rw [node?_put _ _ _ _ hne, if_neg (Scope.ne_of_shared hshared hpassed),
      h.kept passed hpassed]
  kept' passed hpassed := by
    rw [node?_put _ _ _ _ hne, if_neg (Scope.ne_of_shared hshared hpassed),
      h.kept' passed hpassed]

theorem remove (h : Shares scope differ store other) {place : Place}
    (hne : place ≠ []) (hshared : scope.shared place) :
    Shares scope differ (store.remove place) (other.remove place) where
  here_eq := h.here_eq
  here_eq' := h.here_eq'
  node passed hpassed := by
    rw [node?_remove _ _ _ hne, node?_remove _ _ _ hne]
    split_ifs
    · exact .inl rfl
    · exact h.node passed hpassed
  kept passed hpassed := by
    rw [node?_remove _ _ _ hne, if_neg (Scope.ne_of_shared hshared hpassed),
      h.kept passed hpassed]
  kept' passed hpassed := by
    rw [node?_remove _ _ _ hne, if_neg (Scope.ne_of_shared hshared hpassed),
      h.kept' passed hpassed]

theorem clear (h : Shares scope differ store other) {place : Place}
    (hbelow : ∀ passed, place <+: passed → scope.shared passed) :
    Shares scope differ (store.clear place) (other.clear place) where
  here_eq := h.here_eq
  here_eq' := h.here_eq'
  node passed hpassed := by
    rw [node?_clear, node?_clear]
    split_ifs
    · exact .inl rfl
    · exact h.node passed hpassed
  kept passed hpassed := by
    rw [node?_clear, if_neg (fun hinner => hpassed (hbelow passed hinner.1)),
      h.kept passed hpassed]
  kept' passed hpassed := by
    rw [node?_clear, if_neg (fun hinner => hpassed (hbelow passed hinner.1)),
      h.kept' passed hpassed]

theorem makeDirectory (h : Shares scope differ store other) {path : Path}
    (hcovers : scope.Covers path) :
    Matches (Shares scope differ) (store.makeDirectory path)
      (other.makeDirectory path) := by
  unfold Store.makeDirectory
  rw [h.enterRoute_eq hcovers]
  refine Matches.bind fun before henter => Matches.bind fun place hdescend => ?_
  obtain rfl := h.placeOf_eq henter hdescend
  have hsome : (other.node? (placeOf scope.here path)).isSome =
      (store.node? (placeOf scope.here path)).isSome := by
    have hnone := h.none_iff hcovers.admits
    cases hnode : store.node? (placeOf scope.here path) <;>
      cases hnode' : other.node? (placeOf scope.here path) <;> simp_all
  rw [hsome]
  split
  · exact .error _
  · rename_i hfree
    have hnone : store.node? (placeOf scope.here path) = none := by
      simp only [Bool.or_eq_true, not_or] at hfree
      simpa using hfree.2
    have hne : placeOf scope.here path ≠ [] := fun hroot => by
      simp [hroot, node?] at hnone
    exact .ok (h.put hne (h.shared_of_ne hcovers.admits (by simp [hnone]))
      (.inl rfl))

theorem write (h : Shares scope differ store other) {path : Path}
    (hcovers : scope.Covers path) {content content' : Content}
    (hcontent : content' = content ∨
      differ (placeOf scope.here path) content content') :
    Matches (Shares scope differ) (store.write path content)
      (other.write path content') := by
  unfold Store.write
  rw [h.enterRoute_eq hcovers]
  refine Matches.bind fun parent henter => ?_
  split
  · exact .error _
  rename_i hplain
  refine Matches.bind fun place hdescend => ?_
  obtain ⟨-, hplace, -, -⟩ := descend_last henter hdescend (by simp_all)
  obtain rfl := h.placeOf_eq henter hdescend
  simp only [h.directory_iff hcovers.admits]
  split
  · exact .error _
  · rename_i hfree
    refine .ok
      (h.put (by simp [hplace]) (h.shared_of_ne hcovers.admits hfree) ?_)
    rcases hcontent with rfl | hdiffer
    · exact .inl rfl
    · exact .inr ⟨content, content', rfl, rfl, hdiffer⟩

theorem removeEmpty (h : Shares scope differ store other) {path : Path}
    (hcovers : scope.Covers path) (hholds : scope.Holds path) :
    Matches (Shares scope differ) (store.removeEmpty path)
      (other.removeEmpty path) := by
  unfold Store.removeEmpty
  rw [h.enterRoute_eq hcovers]
  refine Matches.bind fun parent henter => ?_
  split
  · exact .error _
  rename_i hcurrent
  split
  · exact .error _
  rename_i hparent
  refine Matches.bind fun place hdescend => ?_
  obtain ⟨-, hplace, -, -⟩ :=
    descend_last henter hdescend (by simp [isDots, hcurrent, hparent])
  obtain rfl := h.placeOf_eq henter hdescend
  rcases h.admitted hcovers.admits with heq | ⟨_, _, hfile, hfile', -⟩
  · rw [heq]
    rcases store.node? (placeOf scope.here path) with _ | ⟨_⟩ | _
    · exact .error _
    · exact .error _
    · dsimp only
      rw [h.namesIn_eq fun name => hholds.admits (List.prefix_append ..)]
      split
      · exact .ok (h.remove (by simp [hplace]) (hholds _ (List.prefix_refl _)))
      · exact .error _
  · rw [hfile, hfile']
    exact .error _

/-! ## Work on files -/

theorem change (h : Shares scope differ store other)
    {step step' : Store → Except StoreError Store}
    (hstep : Matches (Shares scope differ) (step store) (step' other)) :
    Together (Shares scope differ) Eq (outcome (Store.change step) store)
      (outcome (Store.change step') other) := by
  rw [outcome_change, outcome_change]
  generalize step store = result at hstep
  generalize step' other = result' at hstep
  cases hstep with
  | ok hafter => exact ⟨.ok rfl, hafter⟩
  | error error => exact ⟨.error _, h⟩

theorem refused (h : Shares scope differ store other) {path : Path}
    (hcovers : scope.Covers path) (error : StoreError) :
    Together (Shares scope differ) Eq (Store.makeFirst.refused path error store)
      (Store.makeFirst.refused path error other) := by
  refine ⟨?_, h⟩
  unfold Store.makeFirst.refused
  rw [(h.kind_eq hcovers).1]
  dsimp only
  split
  · exact .ok rfl
  · exact .error _

theorem makeFirst (h : Shares scope differ store other) {paths : List Path}
    (hpaths : ∀ path ∈ paths, path.text = "" ∨ scope.Covers path) :
    Together (Shares scope differ) Eq (outcome (Store.makeFirst paths) store)
      (outcome (Store.makeFirst paths) other) := by
  induction paths generalizing store other with
  | nil => exact ⟨.ok rfl, h⟩
  | cons path outer ih =>
      obtain ⟨hpath, houter⟩ := List.forall_mem_cons.1 hpaths
      unfold outcome Store.makeFirst
      by_cases hempty : path.text = ""
      · rw [if_pos hempty, if_pos hempty]
        exact ⟨.ok rfl, h⟩
      rw [if_neg hempty, if_neg hempty]
      have hcovers := hpath.resolve_left hempty
      have hmake := h.makeDirectory hcovers
      generalize store.makeDirectory path = result at hmake
      generalize other.makeDirectory path = result' at hmake
      cases hmake with
      | ok hafter => exact ⟨.ok rfl, hafter⟩
      | error error =>
          have hrefusal := h.refused hcovers error
          cases error with
          | notFound =>
              have hmade := ih h houter
              unfold outcome at hmade
              dsimp only
              generalize Store.makeFirst outer store = result at hmade
              generalize Store.makeFirst outer other = result' at hmade
              obtain ⟨answer, between⟩ := result
              obtain ⟨answer', between'⟩ := result'
              obtain ⟨hanswers, hbetween⟩ := hmade
              cases hanswers with
              | error error => exact ⟨.error error, hbetween⟩
              | ok _ =>
                  have hagain := Shares.makeDirectory hbetween hcovers
                  dsimp only at hagain ⊢
                  generalize between.makeDirectory path = result at hagain
                  generalize between'.makeDirectory path = result' at hagain
                  cases hagain with
                  | ok hafter => exact ⟨.ok rfl, hafter⟩
                  | error error => exact Shares.refused hbetween hcovers error
          | _ => exact hrefusal

theorem makeDirectories (h : Shares scope differ store other) {path : Path}
    (hcovers : path.text = "" ∨ scope.Covers path) :
    Together (Shares scope differ) Eq
      (outcome (Store.makeDirectories path) store)
      (outcome (Store.makeDirectories path) other) := by
  rcases hcovers with hempty | hcovers
  · unfold outcome Store.makeDirectories Store.makeFirst
    rw [if_pos hempty, if_pos hempty]
    exact ⟨.ok rfl, h⟩
  · refine h.makeFirst (List.forall_mem_cons.2 ⟨.inr hcovers,
      fun outer houter => ?_⟩)
    exact (Path.of_mem_directories houter).imp id fun hbegins =>
      hcovers.of_prefix hbegins.1 hbegins.2

theorem delete (h : Shares scope differ store other) {path : Path}
    (hcovers : scope.Covers path) (hholds : scope.Holds path)
    (recursive : Bool) :
    Together (Shares scope differ) Eq
      (outcome (Store.delete path recursive) store)
      (outcome (Store.delete path recursive) other) := by
  have hfind := h.find hcovers
  unfold outcome Store.delete
  generalize hresult : store.find path = result at hfind
  generalize other.find path = result' at hfind
  cases hfind with
  | error error =>
      cases error with
      | notFound => exact ⟨.ok rfl, h⟩
      | _ => exact ⟨.error _, h⟩
  | @ok found found' hfound =>
      obtain ⟨place, node⟩ := found
      obtain ⟨_, node'⟩ := found'
      obtain ⟨rfl, hnode, hnode'⟩ := hfound
      obtain ⟨hplace, -⟩ := find_eq_ok hresult
      rw [h.here_eq] at hplace
      subst hplace
      have hkind := h.directory_iff hcovers.admits
      rw [hnode, hnode'] at hkind
      match node, node' with
      | .file content, .file content' =>
          have hne : placeOf scope.here path ≠ [] := fun hroot => by
            simp [hroot, node?] at hnode
          exact ⟨.ok rfl, h.remove hne (hholds _ (List.prefix_refl _))⟩
      | .file content, .directory => simp at hkind
      | .directory, .file content => simp at hkind
      | .directory, .directory =>
          dsimp only
          have hcleared : Shares scope differ
              (if recursive then
                store.clear (placeOf scope.here path) else store)
              (if recursive then
                other.clear (placeOf scope.here path) else other) := by
            split
            · exact h.clear hholds
            · exact h
          have hremove := hcleared.removeEmpty hcovers hholds
          generalize Store.removeEmpty _ path = result at hremove
          generalize Store.removeEmpty
            (if recursive then other.clear (placeOf scope.here path) else other)
            path = result' at hremove
          cases hremove with
          | ok hafter => exact ⟨.ok rfl, hafter⟩
          | error error =>
              cases error with
              | notFound => exact ⟨.ok rfl, hcleared⟩
              | _ => exact ⟨.error _, hcleared⟩

theorem save (h : Shares scope differ store other)
    {format format' : RecordFormat} {path : Path} (hcovers : scope.Covers path)
    {pairs pairs' : List Pair}
    (hcontent : format'.write pairs' = format.write pairs ∨
      differ (placeOf scope.here path) (.text (format.write pairs))
        (.text (format'.write pairs'))) :
    Together (Shares scope differ) Eq (outcome (format.save path pairs) store)
      (outcome (format'.save path pairs') other) := by
  have hwrite : ∀ {between between' : Store},
      Shares scope differ between between' →
      Together (Shares scope differ) Eq
        (outcome (Store.change fun store =>
          store.write path (.text (format.write pairs))) between)
        (outcome (Store.change fun store =>
          store.write path (.text (format'.write pairs'))) between') := by
    intro between between' hbetween
    apply hbetween.change
    apply hbetween.write hcovers
    rcases hcontent with heq | hdiffer
    · exact .inl (by rw [heq])
    · exact .inr hdiffer
  unfold RecordFormat.save
  split
  · rename_i directory hdirectory
    split
    · have hmade : directory.text = "" ∨ scope.Covers directory :=
        (Path.of_directory? hdirectory).imp id fun hbegins =>
          hcovers.of_prefix hbegins.1 hbegins.2
      exact (h.makeDirectories hmade).bind fun _ _ _ _ _ hbetween =>
        hwrite hbetween
    · exact hwrite h
  · exact hwrite h

/-- Records are read alike where files hold the same, and where they may differ
if what is read of both is alike. -/
theorem load (h : Shares scope differ store other)
    {like : List Pair → List Pair → Prop} {format : RecordFormat} {path : Path}
    (hcovers : scope.Covers path)
    (hdiffer : ∀ content content',
      differ (placeOf scope.here path) content content' →
      Matches like (format.read path content) (format.read path content'))
    (hsame : ∀ pairs, like pairs pairs) :
    Together (Shares scope differ) like (outcome (format.load path) store)
      (outcome (format.load path) other) := by
  have hask :
      Together (Shares scope differ)
        (fun content content' => content' = content ∨
        differ (placeOf scope.here path) content content')
      (outcome (Store.ask fun store => store.read path) store)
      (outcome (Store.ask fun store => store.read path) other) :=
    ⟨(h.read hcovers).mapError _, h⟩
  refine hask.bind fun content content' _ _ hcontent hlater => ⟨?_, hlater⟩
  rcases hcontent with rfl | hone
  · change Matches like (format.read path content') (format.read path content')
    cases format.read path content' with
    | ok pairs => exact .ok (hsame pairs)
    | error error => exact .error error
  · exact hdiffer content content' hone

end Shares

end Store

end JobChain
