import ResourceVersions.Proofs.EmissionLimits
import ResourceVersions.Proofs.HelperPairs
import ResourceVersions.Proofs.Rounds

/-! # Conversions end

The copy of a value follows shapes that may refer to one another in cycles, and a helper starts
again with nothing around it. A structure is not opened inside itself and no list or map is passed
twice, so the copies end; no helper is begun twice, so the helpers end as well. There are at most
two of them for each name of a structure, one for each way. -/
namespace ResourceVersions

namespace Conversion

open Code

namespace Direction

end Direction

/-- No helper is begun twice, and each is named for a structure on the source side of its way. -/
structure Helpers.Owned (c : Converter) (h : Helpers) : Prop where
  distinct : h.begun.Nodup
  named : ∀ name ∈ h.begun, ∃ way, ∃ x ∈ (c.direction way).src.api.structures,
    (c.direction way).helperName? x = some name

section Owned

open Direction

variable {c : Converter} {way : Way} {h : Helpers} {attempts : List Attempt}

/-- Doing tasks begins helpers for the structures that are requested, each of them once. -/
theorem owned_preserved : (c.direction way).Preserved fun tasks h =>
    h.Owned c ∧ ∀ r, .need r ∈ tasks → r.src ∈ (c.direction way).src.api.structures where
  finish := by
    rintro h f rest ⟨ho, ht⟩
    exact ⟨⟨ho.distinct, ho.named⟩, fun r hr => ht r (List.mem_cons_of_mem _ hr)⟩
  skip := by
    rintro h r rest ⟨ho, ht⟩ -
    exact ⟨ho, fun q hq => ht q (List.mem_cons_of_mem _ hq)⟩
  start := by
    rintro h r rest name ⟨ho, ht⟩ hname hnew
    refine ⟨⟨List.nodup_cons.mpr ⟨hnew, ho.distinct⟩, ?_⟩, ?_⟩
    · intro n hn
      rcases List.mem_cons.mp hn with rfl | hn
      · exact ⟨way, r.src, ht r (List.mem_cons_self ..), hname⟩
      · exact ho.named n hn
    · intro q hq
      rcases List.mem_append.mp hq with hq | hq
      · exact (helperBody_limited r).run_requests q (need_mem_tasksOf.mp hq)
      · exact ht q (List.mem_cons_of_mem _ hq)

theorem Attempts.owned (hrun : Attempts c attempts h) : h.Owned c := by
  induction hrun with
  | start => exact ⟨List.nodup_nil, by simp⟩
  | call spoke hub delta _ hcall ih =>
    refine functions_preserve (fun way h ho => ?_) ih hcall
    have hneeds : ∀ r, .need r ∈ List.map HelperTask.need ((c.direction way).functionBody way
        (way.back.pick spoke hub).names.camel delta).run.2 →
        r.src ∈ (c.direction way).src.api.structures := fun r hr =>
      (functionBody_limited way _ delta).run_requests r (by simpa using hr)
    obtain ⟨-, ⟨howned, -⟩, -⟩ := owned_preserved.serve h _ ⟨ho, hneeds⟩
    exact howned

/-- The names of structures of the two versions. -/
def Converter.structures (c : Converter) : List String :=
  (c.spoke.api.structures ++ c.hub.api.structures).dedup

theorem Converter.mem_structures (c : Converter) {x : String}
    (hx : x ∈ (c.direction way).src.api.structures) : x ∈ c.structures := by
  unfold structures
  rw [List.mem_dedup, List.mem_append]
  cases way
  · exact .inl hx
  · exact .inr hx

end Owned

end Conversion

end ResourceVersions
