import JobChain.Proofs.Store.Sharing

/-!
# Stores that differ in contents alone

How work on a store goes depends on where files and directories are, and not on
what is in the files as long as none is read. So the same work on two stores
that differ in the contents of some files succeeds on both or fails of the same,
and leaves two stores that again differ so. Such stores share all there is.
-/

namespace JobChain

namespace Store

/-! ## Stores with other contents -/

/-- Two stores, entered at the same place, that are the same but for the
contents of some files. -/
structure Resembles (here : Place) (differ : Place → Content → Content → Prop)
    (store other : Store) : Prop where
  here_eq : store.here = here
  here_eq' : other.here = here
  node : ∀ place, other.node? place = store.node? place ∨
    ∃ content content', store.node? place = some (.file content) ∧
      other.node? place = some (.file content') ∧ differ place content content'

def Scope.whole (here : Place) : Scope where
  here := here
  shared _ := True
  outside _ := none
  outside' _ := none

theorem Scope.covers_whole (here : Place)
    (path : Path) : (Scope.whole here).Covers path :=
  fun _ _ => .inl trivial

private theorem Scope.holds_whole (here : Place)
    (path : Path) : (Scope.whole here).Holds path :=
  fun _ _ => trivial

theorem resembles_iff {here : Place} {differ : Place → Content → Content → Prop}
    {store other : Store} :
    Resembles here differ store other ↔
    Shares (.whole here) differ store other :=
  ⟨fun h => ⟨h.here_eq, h.here_eq', fun place _ => h.node place,
      fun _ hnot => absurd trivial hnot,
      fun _ hnot => absurd trivial hnot⟩,
    fun h => ⟨h.here_eq, h.here_eq', fun place => h.node place trivial⟩⟩

namespace Resembles

variable {here : Place} {differ : Place → Content → Content → Prop}
  {store other : Store}

theorem refl (store : Store) : Resembles store.here differ store store :=
  ⟨rfl, rfl, fun _ => .inl rfl⟩

theorem mono {differ' : Place → Content → Content → Prop}
    (h : Resembles here differ store other)
    (hdiffer : ∀ place content content', differ place content content' →
      differ' place content content') : Resembles here differ' store other :=
  resembles_iff.2 ((resembles_iff.1 h).mono hdiffer)

theorem directory_iff (h : Resembles here differ store other) (place : Place) :
    other.node? place = some .directory ↔ store.node? place = some .directory :=
  (resembles_iff.1 h).directory_iff (.inl trivial)

theorem none_iff (h : Resembles here differ store other) (place : Place) :
    other.node? place = none ↔ store.node? place = none :=
  (resembles_iff.1 h).none_iff (.inl trivial)

theorem find (h : Resembles here differ store other) (path : Path) :
    Matches (fun found found' => found.1 = found'.1 ∧
      store.node? found.1 = some found.2 ∧
      other.node? found.1 = some found'.2) (store.find path)
        (other.find path) :=
  (resembles_iff.1 h).find (Scope.covers_whole here path)

theorem read (h : Resembles here differ store other) (path : Path) :
    Matches (fun content content' => content' = content ∨
      differ (placeOf here path) content content') (store.read path)
        (other.read path) :=
  (resembles_iff.1 h).read (Scope.covers_whole here path)

/-! ## Work on files -/

theorem write (h : Resembles here differ store other) (path : Path)
    {content content' : Content}
    (hcontent : content' = content ∨
      differ (placeOf here path) content content') :
    Matches (Resembles here differ) (store.write path content)
      (other.write path content') :=
  ((resembles_iff.1 h).write (Scope.covers_whole here path) hcontent).imp
    fun _ _ => resembles_iff.2

theorem change (h : Resembles here differ store other)
    {step step' : Store → Except StoreError Store}
    (hstep : Matches (Resembles here differ) (step store) (step' other)) :
    Together (Resembles here differ) Eq (outcome (Store.change step) store)
      (outcome (Store.change step') other) :=
  ((resembles_iff.1 h).change (hstep.imp fun _ _ => resembles_iff.1)).imp
    fun _ _ => resembles_iff.2

theorem makeDirectories (h : Resembles here differ store other) (path : Path) :
    Together (Resembles here differ) Eq
      (outcome (Store.makeDirectories path) store)
      (outcome (Store.makeDirectories path) other) :=
  ((resembles_iff.1 h).makeDirectories
    (.inr (Scope.covers_whole here path))).imp fun _ _ => resembles_iff.2

theorem delete (h : Resembles here differ store other) (path : Path)
    (recursive : Bool) :
    Together (Resembles here differ) Eq
      (outcome (Store.delete path recursive) store)
      (outcome (Store.delete path recursive) other) :=
  ((resembles_iff.1 h).delete (Scope.covers_whole here path)
    (Scope.holds_whole here path) recursive).imp fun _ _ => resembles_iff.2

/-- Records may be written to a place where contents may differ, and the same
ones anywhere. -/
theorem save (h : Resembles here differ store other)
    {format format' : RecordFormat} {path : Path} {pairs pairs' : List Pair}
    (hcontent : format'.write pairs' = format.write pairs ∨
      differ (placeOf here path) (.text (format.write pairs))
        (.text (format'.write pairs'))) :
    Together (Resembles here differ) Eq (outcome (format.save path pairs) store)
      (outcome (format'.save path pairs') other) :=
  ((resembles_iff.1 h).save (Scope.covers_whole here path) hcontent).imp
    fun _ _ => resembles_iff.2

end Resembles

end Store

end JobChain
