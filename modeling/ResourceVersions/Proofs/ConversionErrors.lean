import ResourceVersions.Proofs.ConversionCalls
import ResourceVersions.Proofs.EmissionLimits
import ResourceVersions.Proofs.PackageRun

/-! # Errors of conversions

What can go wrong when two resources are compared and converted concerns these resources alone,
except that a name may hold no word that an identifier could be made of. -/
namespace ResourceVersions

open Fallible

theorem ResourceDelta.between_fails (spoke hub : ResourceSide) :
    Fails Error.Local (between spoke hub) := by
  have hrenames : Fails Error.Local hub.resource.renames := by
    refine .foldlM (fun acc pair => ?_) _ _
    refine (names_fails pair.1).bind fun old => (names_fails pair.2).bind fun new => ?_
    exact .mapError local_rename _
  refine hrenames.bind fun renames => ?_
  refine (Fails.mapError local_rename _).bind fun spec => ?_
  exact (Fails.mapError local_rename _).bind fun status => .ok _ _

namespace Conversion

open Code

namespace Direction

variable {d : Direction}

/-- Helpers fail with what their tasks fail with. -/
theorem local_preserved : d.Preserved fun tasks _ => ∀ e, .fail e ∈ tasks → e.Local where
  finish hlocal e he := hlocal e (List.mem_cons_of_mem _ he)
  skip hlocal _ e he := hlocal e (List.mem_cons_of_mem _ he)
  start := by
    intro h r rest name hlocal _ _ e he
    rcases List.mem_append.mp he with he | he
    · exact (helperBody_limited r).run_fails e (fail_mem_tasksOf.mp he)
    · exact hlocal e (List.mem_cons_of_mem _ he)

theorem serve_fails {h : Helpers} {tasks : List HelperTask}
    (htasks : ∀ e, .fail e ∈ tasks → e.Local) : Fails Error.Local (d.serve h tasks).1 := by
  obtain ⟨left, hlocal, hend⟩ := local_preserved.serve h tasks htasks
  intro e he
  rw [he] at hend
  cases hend with
  | failed hfail => exact hlocal e hfail

theorem emit_fails {h : Helpers} {work : Emit (List Stmt)} (hwork : d.Limited work) :
    Fails Error.Local (d.emit h work).1 := by
  have hrequests : ∀ e, HelperTask.fail e ∈ work.run.2.map HelperTask.need → e.Local := by simp
  exact (serve_fails hrequests).bind fun _ => hwork.run_fails

end Direction

namespace Converter

theorem function_fails (c : Converter) (h : Helpers) (way : Way) (spoke hub : Resource)
    (delta : ResourceDelta) : Fails Error.Local (c.function h way spoke hub delta).1 := by
  rw [function_eq]
  exact (Direction.emit_fails (Direction.functionBody_limited way _ delta)).map _

theorem functions_fails (c : Converter) (h : Helpers) (spoke hub : Resource)
    (delta : ResourceDelta) : Fails Error.Local (c.functions h spoke hub delta).1 := by
  obtain ⟨-, change, heq⟩ | ⟨-, e, h₁, hto, heq⟩ | ⟨-, toHub, h₁, last, h₂, hto, hfrom, heq⟩ :=
    functions_cases c h spoke hub delta
  · rw [heq]
    exact .error (local_change _)
  · have hfails := function_fails c h .toHub spoke hub delta
    rw [hto] at hfails
    rw [heq]
    exact .error (hfails e rfl)
  · have hfails := function_fails c h₁ .fromHub spoke hub delta
    rw [hfrom] at hfails
    rw [heq]
    exact hfails.map _

end Converter

end Conversion

namespace Package

theorem pairCode_fails (c : Conversion.Converter) (helpers : Conversion.Helpers) (p : ResourcePair) :
    Fails Error.Local (pairCode c helpers p).1 := by
  unfold pairCode
  split
  · rename_i e he
    exact .error (ResourceDelta.between_fails _ _ e he)
  · exact c.functions_fails helpers p.src p.dst _

/-- Of all that can go wrong with the pairs, only a name without words ends the work on them. -/
theorem conversionsOf_fails (version : String) (spoke hub : VersionModel) :
    Fails (fun e => ∃ text, e = .fault (.config (.noWords text)))
      (conversionsOf version spoke hub) := by
  unfold conversionsOf
  split
  · exact .ok _ _
  · refine .foldlM (fun acc p => ?_) _ _
    have hfails := pairCode_fails { spoke, hub } acc.helpers p
    unfold withPair
    split
    · exact .ok _ _
    · rename_i e helpers hrun
      rw [hrun] at hfails
      rcases hfails e rfl with hresource | ⟨text, rfl⟩
      · rw [if_pos hresource]
        exact .ok _ _
      · exact .error ⟨text, rfl⟩

end Package

end ResourceVersions
