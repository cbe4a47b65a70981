import JobChain.Glob
import JobChain.Store

/-!
# Listings

What a glob pattern finds in a store. Parts without wildcards are only looked
up; the others are compared with the names in a directory.
-/

namespace JobChain.Store

open Glob (Part Pattern)

def namesAt (store : Store) (path : Path) : List String :=
  ((store.names path).toOption).getD []

/-- The path of a name in a directory; what lies in the one that paths start
from is named alone. -/
def stepTo (base : Path) (name : String) : Path :=
  if base.components = [.current] then ⟨name⟩ else base.child name

def dotsFor (base : Path) (part : Part) : List Path :=
  if part.beginsWithDot then
    ([".", ".."].reverse.filter part.accepts).map base.child
  else []

def search (store : Store) (keep : Path → Bool) : Nat → List Part → Path →
    List Path
  | 0, _, _ => []
  | _, [], path => if keep path then [path] else []
  | fuel + 1, part :: rest, base =>
      match part with
      | .literal name =>
          let next := stepTo base name
          let found := if isDots name then store.isDirectory base
            else store.has next
          if found then search store keep fuel rest next else []
      | .wild _ =>
          let dots := if store.isDirectory base then dotsFor base part else []
          let named := (store.namesAt base).filter part.accepts
          (dots ++ named.map (stepTo base)).flatMap
            (search store keep fuel rest)
      | .deep =>
          let rest := rest.dropWhile (· = .deep)
          (store.namesAt base).flatMap fun name =>
            let next := stepTo base name
            let matched := match rest with
              | [] => if store.isDirectory next then [next] else []
              | head :: others =>
                  if head.accepts name then search store keep fuel others next
                  else []
            matched ++
              (if store.isDirectory next then
                search store keep fuel (.deep :: rest) next else [])

def searchFuel (store : Store) (pattern : Pattern) : Nat :=
  (pattern.parts.length + 1) * (store.nodes.size + 2)

def found (store : Store) (pattern : Pattern) : List Path :=
  store.search (fun path => !pattern.directories || store.isDirectory path)
    (store.searchFuel pattern) pattern.parts
      (if pattern.absolute then ⟨"/"⟩ else ⟨"."⟩)

def listing (store : Store) (pattern : String) : Except IoError (List Path) :=
  match Pattern.ofText? pattern with
  | none => .error (.badPattern pattern)
  | some read => .ok (Path.sort (store.found read))

end JobChain.Store
