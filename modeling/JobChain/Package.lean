import JobChain.Log
import JobChain.Options
import JobChain.Store

/-!
# Packages

A chain cannot run without the package of its functions. An option may name it;
otherwise it is looked for around the working directory and then in an
installation.
-/

namespace JobChain.Package

/-- The directories around the working directory and what they are called. -/
def candidates : List (String × String) :=
  [("target", "desarrollo"), ("../target", "desarrollo"),
    ("lib", "distribución"), ("../lib", "distribución")]

def candidatePath (directory : String) : Path :=
  ((⟨"."⟩ : Path).child directory).child packageFile

def firstFound (store : Store) : List (String × String) → Option (Path × String)
  | [] => none
  | (directory, kind) :: rest =>
      if store.has (candidatePath directory) then
        some (candidatePath directory, kind)
      else firstFound store rest

def installed (home : String) : Path :=
  ((⟨home⟩ : Path).child "lib").child packageFile

def locate (store : Store) (home? : Option String) (options : Options) :
    List LogLine × Except PackageError Path :=
  match options.get? Options.package with
  | some given =>
      ([⟨.info, "usando el paquete provisto: " ++ given⟩], .ok ⟨given⟩)
  | none =>
      match firstFound store candidates with
      | some (path, kind) =>
          ([⟨.warning, "usando el paquete de " ++ kind ++ ": " ++ path.text⟩],
            .ok path)
      | none =>
          match home?.filter fun home => !Text.isBlankText home with
          | none => ([], .error .noHome)
          | some home =>
              if store.has (installed home) then
                ([⟨.info, "usando el paquete de distribución: " ++
                  (installed home).text⟩],
                  .ok (installed home))
              else ([], .error .notFound)

end JobChain.Package
