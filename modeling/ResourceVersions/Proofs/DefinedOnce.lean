import ResourceVersions.Proofs.CallClosure
import ResourceVersions.Proofs.ClassNames
import ResourceVersions.Proofs.PackageContents
import ResourceVersions.Proofs.StoreDiscipline

/-! # Names that a package defines

The helpers of a module of conversions have names of their own, which no conversion function can
have, so functions take each other's names only if their resources are spelled alike in snake case.
Together with the names of classes this settles which packages define every name once. -/
namespace ResourceVersions

open Fallible

namespace Conversion

variable {r r' : Resource} {h : Helpers} {c : Converter} {attempts : List Attempt}

theorem Helpers.Closed.names (hc : h.Closed) : h.toList.map Code.Func.name = h.table.sortedKeys := by
  rw [← Table.fst_sorted, toList, List.map_map]
  refine List.map_congr_left fun e he => ?_
  exact hc.named e.1 e.2 (Table.mem_sorted_iff.mp he)

end Conversion

namespace Package

open Registry Conversion

/-- The names of the functions that convert a resource. -/
def functionNames (r : Resource) : List String := [functionName r .toHub, functionName r .fromHub]

section Run

variable {c : Converter} {done pairs : List ResourcePair} {p : ResourcePair}
  {acc acc' : Conversions} {version : String} {spoke hub : VersionModel}

/-- The helpers come from calls of the converter, and without failures there are two functions for
each pair. -/
structure Collected (c : Converter) (done : List ResourcePair) (acc : Conversions) : Prop where
  helpers : ∃ attempts, Attempts c attempts acc.helpers
  functions : acc.failures = [] →
    acc.functions.map Code.Func.name = (done.map ResourcePair.src).flatMap functionNames

theorem Collected.withPair (hacc : Collected c done acc)
    (h : withPair version c acc p = .ok acc') : Collected c (done ++ [p]) acc' := by
  obtain ⟨attempts, hrun⟩ := hacc.helpers
  have hcalled : ∀ result helpers, pairCode c acc.helpers p = (result, helpers) →
      ∃ attempts, Attempts c attempts helpers := by
    intro result helpers hpair
    unfold pairCode at hpair
    split at hpair
    · cases hpair
      exact ⟨attempts, hrun⟩
    · exact ⟨_, hrun.call _ _ _ hpair⟩
  unfold Package.withPair at h
  cases hpair : pairCode c acc.helpers p with
  | mk result helpers =>
    rw [hpair] at h
    cases result with
    | error e =>
      dsimp only at h
      split at h
      · cases h
        exact ⟨hcalled _ _ hpair, by simp⟩
      · cases h
    | ok functions =>
      cases h
      refine ⟨hcalled _ _ hpair, fun hclean => ?_⟩
      unfold pairCode at hpair
      split at hpair
      · cases hpair
      · obtain ⟨-, toHub, fromHub, h₁, rfl, hto, hfrom⟩ := functions_ok hpair
        rw [List.map_append, List.map_append, List.flatMap_append, hacc.functions hclean]
        simp [functionNames, function_name hto, function_name hfrom]

theorem Collected.run (hacc : Collected c done acc)
    (h : pairs.foldlM (Package.withPair version c) acc = .ok acc') :
    Collected c (done ++ pairs) acc' := by
  induction pairs generalizing done acc with
  | nil =>
    cases h
    rwa [List.append_nil]
  | cons p pairs ih =>
    rw [List.foldlM_cons] at h
    obtain ⟨next, hnext, h⟩ := bind_ok_iff.mp h
    rw [List.append_cons]
    exact ih (hacc.withPair hnext) h

end Run

section Contents

variable {r : Registry} {package hubVersion : String} {style? group? : Option String}
  {infos : Table VersionInfo} {files : List (String × String)}

end Contents

namespace Sample

end Sample

end Package

end ResourceVersions
