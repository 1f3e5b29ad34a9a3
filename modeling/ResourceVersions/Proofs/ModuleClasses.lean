import ResourceVersions.Conversion.Functions
import ResourceVersions.Proofs.CopyMeaning
import ResourceVersions.Value.Classes

/-! # The classes that conversions refer to

The classes of the spoke's own module and, behind their alias, those of the hub. Every class
stands under a name of its own, so the table of them all declares each as its module does. -/
namespace ResourceVersions

open Code

/-- A type of one module as another module refers to it. What is built in is the same everywhere,
and modules have no choices of types. -/
def Hint.within (alias? : Option String) : Hint → Hint
  | list e => list (e.within alias?)
  | dict k v => dict (k.within alias?) (v.within alias?)
  | named n => named (if Classes.builtin.contains n then n else TypeRef.qualified ⟨n, alias?⟩)
  | h => h

namespace VersionModel

/-- An attribute that is null unless it is given. A type that cannot be written is any. -/
def attrDecl (m : VersionModel) (alias? : Option String) (name : String) (shape? : Option String)
    (isSecret : Bool) : AttrDecl :=
  let hint := match m.hint shape? isSecret with
    | .ok h => h.within alias?
    | .error _ => .any
  ⟨name, .union [hint, .none], some .null⟩

def typeDecls (m : VersionModel) (alias? : Option String) (c : TypeDef) : List AttrDecl :=
  c.attrs.map fun a => m.attrDecl alias? a.names.camelLower (some a.ref.target) a.isSecret

def fieldDecls (m : VersionModel) (alias? : Option String) (fields : Table Field) :
    List AttrDecl :=
  fields.sorted.map fun e => m.attrDecl alias? e.2.attrName e.2.shape? e.2.isSecret

/-- The attribute of a Status that says which cloud resource it stands for. -/
def metadataDecl : AttrDecl :=
  ⟨"resourceMetadata", .union [.named "ResourceMetadata", .none], some .null⟩

def specDecls (m : VersionModel) (alias? : Option String) (r : Resource) : List AttrDecl :=
  m.fieldDecls alias? r.spec

def statusDecls (m : VersionModel) (alias? : Option String) (r : Resource) : List AttrDecl :=
  metadataDecl :: m.fieldDecls alias? r.status

/-- The classes of structures, Specs and Statuses. -/
def moduleClasses (m : VersionModel) (alias? : Option String) :
    List (String × List AttrDecl) :=
  m.typeDefs.map (fun c => (TypeRef.qualified ⟨c.className, alias?⟩, m.typeDecls alias? c)) ++
    m.resources.flatMap fun r =>
      [(TypeRef.qualified ⟨r.names.camel ++ "Spec", alias?⟩, m.specDecls alias? r),
       (TypeRef.qualified ⟨r.names.camel ++ "Status", alias?⟩, m.statusDecls alias? r)]

end VersionModel

namespace Conversion.Converter

/-- All classes by the names under which conversions refer to them. -/
def classes (c : Converter) : Classes :=
  .ofList (Classes.builtin.entries ++ (c.spoke.moduleClasses none ++
    c.hub.moduleClasses (some c.hubAlias)))

end Conversion.Converter

namespace VersionModel

variable {m : VersionModel}

/-- The names of the classes of the parts of a resource. -/
def partNames (r : Resource) : List String := [r.names.camel ++ "Spec", r.names.camel ++ "Status"]

/-- The names of the classes as the module itself refers to them. -/
def plainNames (m : VersionModel) : List String :=
  m.typeDefs.map TypeDef.className ++ m.resources.flatMap partNames

theorem fst_moduleClasses (m : VersionModel) (alias? : Option String) :
    (m.moduleClasses alias?).map Prod.fst =
      m.plainNames.map fun n => TypeRef.qualified ⟨n, alias?⟩ := by
  simp [moduleClasses, plainNames, partNames, List.map_flatMap, Function.comp_def]

theorem last_spec (s : String) : (s ++ "Spec").toList.getLast? = some 'c' := by
  rw [String.toList_append]
  exact List.getLast?_append_of_ne_nil _ (by decide)

theorem last_status (s : String) : (s ++ "Status").toList.getLast? = some 's' := by
  rw [String.toList_append]
  exact List.getLast?_append_of_ne_nil _ (by decide)

theorem last_of_part {r : Resource} {n : String} (h : n ∈ partNames r) :
    n.toList.getLast? = some 'c' ∨ n.toList.getLast? = some 's' := by
  rcases List.mem_cons.mp h with rfl | h
  · exact .inl (last_spec _)
  · obtain rfl := List.mem_singleton.mp h
    exact .inr (last_status _)

theorem partNames_nodup {resources : List Resource}
    (h : (resources.map fun r => r.names.camel).Nodup) : (resources.flatMap partNames).Nodup := by
  have hdiffer : ∀ s t : String, s ++ "Spec" ≠ t ++ "Status" := by
    intro s t e
    have hlast := last_spec s
    rw [e, last_status] at hlast
    cases hlast
  rw [List.nodup_flatMap]
  refine ⟨fun r _ => by simp [partNames, hdiffer], ?_⟩
  refine (List.pairwise_map.mp h).imp fun {r r'} hne => ?_
  intro n hn hn'
  simp only [partNames, List.mem_cons, List.not_mem_nil, or_false] at hn hn'
  rcases hn with rfl | rfl <;> rcases hn' with e | e
  · exact hne (String.append_left_inj _ |>.mp e)
  · exact hdiffer _ _ e
  · exact hdiffer _ _ e.symm
  · exact hne (String.append_left_inj _ |>.mp e)

theorem plainNames_nodup (hm : m.Built) : m.plainNames.Nodup := by
  obtain ⟨hnamed, htypes⟩ := hm.parts
  rw [plainNames, List.nodup_append]
  refine ⟨htypes.nodup, partNames_nodup hnamed.nodup, ?_⟩
  rintro n hn k hk rfl
  obtain ⟨c, hc, rfl⟩ := List.mem_map.mp hn
  obtain ⟨r, hr, hk⟩ := List.mem_flatMap.mp hk
  apply (htypes.each c hc).free
  refine List.mem_append_right _ (List.mem_flatMap.mpr ⟨r, hr, ?_⟩)
  simp only [partNames, List.mem_cons, List.not_mem_nil, or_false] at hk
  rcases hk with hk | hk <;> simp [Types.resourceClasses, hk]

theorem builtin_keys : Classes.builtin.keys =
    ["ObjectMeta", "ResourceMetadata", "SecretKeyReference", "ResourceBase"] := by
  decide

theorem plainNames_builtin (hm : m.Built) : ∀ n ∈ m.plainNames, n ∉ Classes.builtin.keys := by
  obtain ⟨hnamed, htypes⟩ := hm.parts
  intro n hn hin
  rw [builtin_keys] at hin
  rcases List.mem_append.mp hn with hn | hn
  · obtain ⟨c, hc, rfl⟩ := List.mem_map.mp hn
    have hmodule : ∀ b ∈ ["ObjectMeta", "ResourceMetadata", "SecretKeyReference", "ResourceBase"],
        b ∈ moduleNames := by decide
    exact (htypes.each c hc).free (List.mem_append_left _ (hmodule _ hin))
  · obtain ⟨r, -, hn⟩ := List.mem_flatMap.mp hn
    have hlast : ∀ b ∈ ["ObjectMeta", "ResourceMetadata", "SecretKeyReference", "ResourceBase"],
        ¬ (b.toList.getLast? = some 'c' ∨ b.toList.getLast? = some 's') := by decide
    exact hlast n hin (last_of_part hn)

theorem plainNames_dot (hm : m.Built) : ∀ n ∈ m.plainNames, '.' ∉ n.toList := by
  obtain ⟨hnamed, htypes⟩ := hm.parts
  intro n hn
  rcases List.mem_append.mp hn with hn | hn
  · obtain ⟨c, hc, rfl⟩ := List.mem_map.mp hn
    exact (htypes.each c hc).chars
  · obtain ⟨r, hr, hn⟩ := List.mem_flatMap.mp hn
    obtain ⟨given, hgiven⟩ := hnamed.names r hr
    have hcamel : '.' ∉ r.names.camel.toList := by
      intro hin
      have := Names.camel_alnum hgiven '.' hin
      exact absurd this (by decide)
    simp only [partNames, List.mem_cons, List.not_mem_nil, or_false] at hn
    rcases hn with rfl | rfl <;> simp [hcamel]

end VersionModel

namespace Conversion.Converter

open Direction

variable {c : Converter}

theorem qualified_some (a n : String) : TypeRef.qualified ⟨n, some a⟩ = a ++ "." ++ n := rfl

/-- Every class has a name of its own. -/
theorem classNames_nodup (hspoke : c.spoke.Built) (hhub : c.hub.Built) :
    ((Classes.builtin.entries ++ (c.spoke.moduleClasses none ++
      c.hub.moduleClasses (some c.hubAlias))).map Prod.fst).Nodup := by
  have hplain : ∀ n : String, TypeRef.qualified ⟨n, none⟩ = n := fun _ => rfl
  have hdot : ∀ n, '.' ∈ (TypeRef.qualified ⟨n, some c.hubAlias⟩).toList := by
    intro n
    simp [qualified_some]
  rw [List.map_append, List.map_append, VersionModel.fst_moduleClasses,
    VersionModel.fst_moduleClasses]
  simp only [hplain, List.map_id']
  rw [List.nodup_append, List.nodup_append]
  refine ⟨Classes.builtin.nodup, ⟨VersionModel.plainNames_nodup hspoke, ?_, ?_⟩, ?_⟩
  · refine (VersionModel.plainNames_nodup hhub).map fun n k e => ?_
    exact (String.append_right_inj _).mp e
  · rintro n hn k hk rfl
    obtain ⟨k, -, rfl⟩ := List.mem_map.mp hk
    exact VersionModel.plainNames_dot hspoke _ hn (hdot k)
  · rintro n hn k hk rfl
    rcases List.mem_append.mp hk with hk | hk
    · exact VersionModel.plainNames_builtin hspoke n hk hn
    · obtain ⟨k, -, rfl⟩ := List.mem_map.mp hk
      have hin : TypeRef.qualified ⟨k, some c.hubAlias⟩ ∈ Classes.builtin.keys := hn
      have hbuiltin : ∀ b ∈ Classes.builtin.keys, '.' ∉ b.toList := by
        rw [VersionModel.builtin_keys]
        decide
      exact hbuiltin _ hin (hdot k)

/-- The side of a way that it starts from or leads to is the spoke or the hub. -/
theorem moduleClass_get? (hspoke : c.spoke.Built) (hhub : c.hub.Built) {s : Side}
    (hs : s = ⟨c.spoke, none⟩ ∨ s = ⟨c.hub, some c.hubAlias⟩) {name : String}
    {attrs : List AttrDecl} (h : (name, attrs) ∈ s.model.moduleClasses s.alias?) :
    c.classes.get? name = some attrs := by
  apply Table.get?_ofList (classNames_nodup hspoke hhub)
  refine List.mem_append_right _ ?_
  rcases hs with rfl | rfl
  · exact List.mem_append_left _ h
  · exact List.mem_append_right _ h

theorem side_cases (way : Way) :
    ((c.direction way).srcSide = ⟨c.spoke, none⟩ ∨
      (c.direction way).srcSide = ⟨c.hub, some c.hubAlias⟩) ∧
    ((c.direction way).dstSide = ⟨c.spoke, none⟩ ∨
      (c.direction way).dstSide = ⟨c.hub, some c.hubAlias⟩) := by
  cases way with
  | toHub => exact ⟨.inl rfl, .inr rfl⟩
  | fromHub => exact ⟨.inr rfl, .inl rfl⟩

/-- Both ways of a converter between built models are grounded in its classes. -/
theorem grounded (hspoke : c.spoke.Built) (hhub : c.hub.Built)
    (hspokeAttrs : c.spoke.DistinctAttrs) (hhubAttrs : c.hub.DistinctAttrs) (way : Way) :
    (c.direction way).Grounded c.classes := by
  have hdeclared : ∀ y d, (c.direction way).dst.typeDef? y = some d → ∃ attrs,
      c.classes.get? ((c.direction way).dstSide.className d) = some attrs ∧
        attrs.map AttrDecl.name = d.attrs.map fun a => a.names.camelLower := by
    intro y d hd
    refine ⟨(c.direction way).dst.typeDecls (c.direction way).dstAlias? d, ?_, ?_⟩
    · apply moduleClass_get? hspoke hhub (side_cases way).2
      refine List.mem_append_left _ (List.mem_map.mpr ⟨d, List.mem_of_find?_eq_some hd, rfl⟩)
    · simp [VersionModel.typeDecls, VersionModel.attrDecl]
  cases way with
  | toHub =>
    exact ⟨hspoke.coherent, hhub.coherent, hspokeAttrs, hhubAttrs, hdeclared⟩
  | fromHub =>
    exact ⟨hhub.coherent, hspoke.coherent, hhubAttrs, hspokeAttrs, hdeclared⟩

end Conversion.Converter

end ResourceVersions
